import Nvram.Libnvram
import Nvram.Library.Keyed

/-!
# What the program relies on in libnvram

The documented behaviour of libnvram, as hypotheses: an image that was serialised verifies,
announces its own length and deserialises to its list; the transaction makes the verified
section with the larger counter active and turns to the other one with the next counter; a
list is a finite map.  A serialisation may fail, and then nothing is said about it.
-/

namespace Nvram

def counterMax : ℕ := 2 ^ 32 - 1

def LibnvramSection.Verified (s : LibnvramSection) : Prop := s.state = .allVerified

instance (s : LibnvramSection) : Decidable s.Verified := inferInstanceAs (Decidable (_ = _))

def LibnvramSection.counter (s : LibnvramSection) : ℕ := s.hdr.counter.toNat

namespace Libnvram

variable (lib : Libnvram)

/-- The image of a list in a buffer of the size libnvram asks for. -/
def image (list : List Entry) (hdr : LibnvramHeader) : Bytes :=
  (lib.serialize list (lib.serializeSize list) hdr).bytes

/-- What holds of an image that was produced. -/
structure GoodImage (list : List Entry) (hdr : LibnvramHeader) (image : Bytes) : Prop where
  length : image.length = (lib.serializeSize list).toNat
  headerLen_le : lib.headerLen.toNat ≤ image.length
  validateHeader : ∃ h, lib.validateHeader (image.take lib.headerLen.toNat) = some h ∧
    (lib.headerLen + h.len).toNat = image.length
  verified : (lib.verifySection image).Verified
  counter : (lib.verifySection image).hdr.counter = hdr.counter
  deserialize : lib.deserialize (image.drop lib.headerLen.toNat) (lib.verifySection image).hdr =
    .ok list

structure ImageLaws : Prop where
  good : ∀ list hdr, lib.image list hdr ≠ [] → lib.GoodImage list hdr (lib.image list hdr)
  /-- No data is not an image. -/
  empty : ¬ (lib.verifySection []).Verified

/-- One side of `libnvram_next_transaction`: the counter after `counter`, with a reset when
it cannot grow. -/
def NextCounter (counter : ℕ) (op : LibnvramOperation) (next : UInt32) : Prop :=
  if counter < counterMax then op.counterReset = false ∧ next.toNat = counter + 1
  else op.counterReset = true ∧ next.toNat < counterMax

structure TransactionLaws : Prop where
  sectionA : ∀ a b, (lib.initTransaction a b).sectionA = lib.verifySection a
  sectionB : ∀ a b, (lib.initTransaction a b).sectionB = lib.verifySection b
  activeA : ∀ a b, (lib.initTransaction a b).active.a = true → (lib.verifySection a).Verified ∧
    ((lib.verifySection b).Verified →
      (lib.verifySection b).counter ≤ (lib.verifySection a).counter)
  activeB : ∀ a b, (lib.initTransaction a b).active.b = true → (lib.verifySection b).Verified ∧
    ((lib.verifySection a).Verified →
      (lib.verifySection a).counter ≤ (lib.verifySection b).counter)
  active : ∀ a b, (lib.verifySection a).Verified ∨ (lib.verifySection b).Verified →
    (lib.initTransaction a b).active.a = true ∨ (lib.initTransaction a b).active.b = true
  activeOne : ∀ a b, (lib.initTransaction a b).active.a = true →
    (lib.initTransaction a b).active.b = false
  nextA : ∀ trans hdr, trans.active = ⟨true, false⟩ →
    (lib.nextTransaction trans hdr).1.writeA = false ∧
      NextCounter trans.sectionA.counter (lib.nextTransaction trans hdr).1
        (lib.nextTransaction trans hdr).2.counter
  nextB : ∀ trans hdr, trans.active = ⟨false, true⟩ →
    (lib.nextTransaction trans hdr).1.writeA = true ∧
      NextCounter trans.sectionB.counter (lib.nextTransaction trans hdr).1
        (lib.nextTransaction trans hdr).2.counter

/-- A list without duplicate keys is a finite map; in which order it holds the entries is
left open. -/
structure ListLaws : Prop where
  listGet : ∀ list key, Keyed.Distinct Entry.key list →
    lib.listGet list key = Keyed.get Entry.key list key
  listSet : ∀ list entry, Keyed.Distinct Entry.key list →
    Keyed.Distinct Entry.key (lib.listSet list entry) ∧
      ∀ k, Keyed.get Entry.key (lib.listSet list entry) k =
        if entry.key = k then some entry else Keyed.get Entry.key list k
  listRemove_none : ∀ list key, Keyed.Distinct Entry.key list →
    Keyed.get Entry.key list key = none → lib.listRemove list key = none
  listRemove_some : ∀ list key entry, Keyed.Distinct Entry.key list →
    Keyed.get Entry.key list key = some entry → ∃ rest, lib.listRemove list key = some rest ∧
      Keyed.Distinct Entry.key rest ∧
        ∀ k, Keyed.get Entry.key rest k = if key = k then none else Keyed.get Entry.key list k

/-- `libnvram_list_set` replaces the entry with the same key where it stands, or else appends;
a list is iterated in this order. -/
def SetsInPlace : Prop := ∀ list entry, lib.listSet list entry = Keyed.put Entry.key entry list

end Libnvram

end Nvram
