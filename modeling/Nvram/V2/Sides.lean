import Nvram.V2.Session
import Nvram.Program.Invocation

/-!
# A v2 side under the lock

The init of the v2 format as `main` uses it: the list it returns is the one of a section that
verifies, or empty, and a commit on the handle it returns writes images of its list to the
sections of the side and nothing else.
-/

namespace Nvram

open Effects TwoSlot

/-- The sections of a side that its init opens. -/
def Configured (sections : Option CString × Option CString) (path : CString) : Prop :=
  configured sections.1 = some path ∨ configured sections.2 = some path

/-- What a commit of the list may hand to the interface: its image, under some header. -/
def IsImage (lib : Libnvram) (list : List Entry) (buf : Bytes) : Prop :=
  buf ≠ [] ∧ ∃ hdr, buf = lib.image list hdr

def nvramV2Format.initSpec (lib : Libnvram) : (nvramV2Format lib).InitSpec lib where
  Opens v i sections r :=
    InitResult v i sections.1 sections.2 r (v2Load lib v.contents sections.1 sections.2)
  init hA _ _ hsecA hsecB := under_v2Init_truthful hA hsecA hsecB

section

variable {lib : Libnvram} (hi : lib.ImageLaws) {contents : Contents}

include hi

end

end Nvram
