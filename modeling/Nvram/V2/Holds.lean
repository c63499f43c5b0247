import Nvram.V2.Store
import Nvram.V2.Stops
import Nvram.Program.Reference

/-!
# A v2 side as a store of one map

A side holds a map when its two slots agree and whatever is in force of them stands for the
map.  A commit of a list that stands for another map leaves the side with the one or the other
map at every point where it can stop, and with the other one when it returns 0.
-/

namespace Nvram

open Effects TwoSlot

/-- What is in force of the two sections is unique and stands for the map. -/
structure HoldsMap (lib : Libnvram) (c : Contents) (pathA pathB : CString) (m : Settings) :
    Prop where
  agree : Agree (slotOf lib (c pathA)) (slotOf lib (c pathB))
  inForce : ∀ z, InForce (slotOf lib (c pathA)) (slotOf lib (c pathB)) z →
    Represents (z.getD []) m

theorem bounded_slotOf (lib : Libnvram) (content : Bytes) :
    TwoSlot.Bounded counterMax (slotOf lib content) :=
  bounded_dataSlot lib _

namespace HoldsMap

variable {lib : Libnvram} {c c' : Contents} {pathA pathB : CString} {m m' : Settings}

theorem symm (h : HoldsMap lib c pathA pathB m) : HoldsMap lib c pathB pathA m :=
  ⟨h.agree.symm, fun z hz => h.inForce z hz.symm⟩

theorem congr (h : HoldsMap lib c pathA pathB m) (hA : c' pathA = c pathA)
    (hB : c' pathB = c pathB) : HoldsMap lib c' pathA pathB m := by
  constructor
  · rw [hA, hB]
    exact h.agree
  · rw [hA, hB]
    exact h.inForce

/-- Sections that do not verify hold the empty map. -/
theorem of_blank (hA : ¬ Verifies lib (c pathA)) (hB : ¬ Verifies lib (c pathB)) :
    HoldsMap lib c pathA pathB fun _ => none := by
  have hslotA : slotOf lib (c pathA) = none := dataSlot_eq_none_of_not_verified hA
  have hslotB : slotOf lib (c pathB) = none := dataSlot_eq_none_of_not_verified hB
  constructor
  · rw [hslotA]
    exact agree_none_left _
  · rw [hslotA, hslotB]
    intro z hz
    rw [inForce_of_none hz]
    exact represents_nil

/-- What is loaded from the side is all that is in force. -/
theorem of_load (ht : lib.TransactionLaws) (h : HoldsMap lib c pathA pathB m)
    (hA : configured (some pathA) = some pathA) (hB : configured (some pathB) = some pathB)
    {list : List Entry} (hload : Loads lib c (some pathA, some pathB) list) :
    Represents list m ∧ ∀ z, InForce (slotOf lib (c pathA)) (slotOf lib (c pathB)) z →
      z.getD [] = list := by
  obtain ⟨trans, hload⟩ := hload
  obtain ⟨a, b, ha, hb, -, hactive⟩ := v2Load_eq_some_iff.mp hload
  obtain ⟨z, hz, rfl⟩ := inForce_of_activeList ht hactive
  have hslotA : slotOf lib (c pathA) = dataSlot lib a := by
    rw [slotOf, (sideData_of_configured hA).symm.trans ha, Option.getD_some]
  have hslotB : slotOf lib (c pathB) = dataSlot lib b := by
    rw [slotOf, (sideData_of_configured hB).symm.trans hb, Option.getD_some]
  rw [← hslotA, ← hslotB] at hz
  exact ⟨h.inForce z hz, fun z' hz' => by rw [hz'.unique h.agree hz]⟩

/-- Wherever a commit that takes its turn stops, the side holds the new map or the old one, and
the new one when it returned 0. -/
theorem stops {target other : CString}
    (h : HoldsMap lib c target other m) {list : List Entry} {hdr : LibnvramHeader}
    {reset acked : Bool}
    (hturn : Turn counterMax (slotOf lib (c target)) (slotOf lib (c other)) hdr.counter.toNat reset)
    (hlist : Represents list m')
    (hleaves : CommitLeaves lib target other list hdr reset c c' acked) :
    HoldsMap lib c' target other m' ∨ acked = false ∧ HoldsMap lib c' target other m := by
  have hagree := hleaves.slots.agree hturn h.agree
  have hforce := fun z => hleaves.slots.inForce (z := z) hturn (bounded_slotOf lib _)
  by_cases hnew : InForce (slotOf lib (c' target)) (slotOf lib (c' other)) (some list)
  · refine Or.inl ⟨hagree, fun z hz => ?_⟩
    rw [hz.unique hagree hnew]
    exact hlist
  · cases acked with
    | true =>
        refine Or.inl ⟨hagree, fun z hz => ?_⟩
        rcases hforce z hz with rfl | ⟨hfalse, -⟩
        · exact hlist
        · cases hfalse
    | false =>
        refine Or.inr ⟨rfl, hagree, fun z hz => ?_⟩
        rcases hforce z hz with rfl | ⟨-, hold⟩
        · exact absurd hz hnew
        · exact h.inForce z hold

end HoldsMap

end Nvram
