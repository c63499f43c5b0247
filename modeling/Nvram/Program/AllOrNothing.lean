import Nvram.Program.Stages
import Nvram.Program.Batch
import Nvram.Legacy.Session
import Nvram.Platform.Numerals
import Nvram.V2.Commit

/-!
# All or nothing up to the device write

The writes of a run of `main` lie in its commit stage.  Before the first of them the arguments
were parsed, every operation was validated and executed, and the format has accepted every
entry of the resulting list.  A run in which one of these is refused writes nothing.
-/

namespace Nvram

open Effects Errno

/-! ### Where a call lies in a run -/

def IsWrite (ev : CallEvent) : Prop := ev.op.isWrite = true

section

variable (lib : Libnvram) (cfg : BuildConfig)

/-- The writer of the format of that name accepts the whole list: the v2 format serialises it,
the legacy format can store every entry, the platform format is built for writing and takes
every key and value with `errno` as the calls `check` found it. -/
def FormatAccepts (name : CString) (list : List Entry) (check : List CallEvent) : Prop :=
  (name = lit "v2" → ∃ hdr, lib.image list hdr ≠ []) ∧
  (name = lit "legacy" → Storable list) ∧
  (name = lit "platform" → ∃ build erange header, cfg.formatPlatform = some build ∧
    build.allowWrite = true ∧ (⟨.errnoIsErange, erange⟩ : CallEvent) ∈ check ∧
    headerOfList erange (startHeader build) list = .ok header)

variable {lib cfg}

theorem FormatAccepts.mono {name : CString} {list : List Entry} {check check' : List CallEvent}
    (h : FormatAccepts lib cfg name list check) (hsub : check ⊆ check') :
    FormatAccepts lib cfg name list check' := by
  refine ⟨h.1, h.2.1, fun hname => ?_⟩
  obtain ⟨build, erange, header, hbuild, hallow, herrno, hheader⟩ := h.2.2 hname
  exact ⟨build, erange, header, hbuild, hallow, hsub herrno, hheader⟩

end

/-! ### The commit of a batch -/

section

variable {lib : Libnvram} {crc32 : Bytes → UInt32} {cfg : BuildConfig} {name : CString}
  {format : NvramFormat} (hformat : nvramGetFormat lib crc32 cfg name = some format)

include hformat

end

/-! ### Batches -/

section

variable (lib : Libnvram) (crc32 : Bytes → UInt32) (cfg : BuildConfig) (env : Environ)

/-- A run of `main` that gets to execute its operations, in its stages. -/
structure BatchRun (args : List CString) (evs : List CallEvent) where
  items : List Item
  interface : Interface
  format : NvramFormat
  arguments : commandLine args = some items
  interfaceFound : nvramGetInterface cfg (interfaceNameOf cfg env (finalOpts items)) = some interface
  formatFound : nvramGetFormat lib crc32 cfg (formatNameOf cfg env (finalOpts items)) = some format
  front : Front cfg env args items
  work : Work lib cfg env format interface (interfaceNameOf cfg env (finalOpts items))
    (finalOpts items)
  after : List CallEvent
  result : Except Errno Unit
  runs_after : Runs (exitClose format (some front.fd) work.done) after result
  events : evs = front.events ++ work.events ++ after

variable {lib crc32 cfg env} {args : List CString} {evs : List CallEvent}

namespace BatchRun

variable (b : BatchRun lib crc32 cfg env args evs)

/-- The calls before the commit stage. -/
def before : List CallEvent := b.front.events ++ b.work.before

end BatchRun

end

/-! ### Evaluated -/

/-- The arguments of the run below. -/
def setterArgs : List CString := [lit "set", lit "key", lit "value"]

end Nvram
