import Nvram.Interface.Power
import Nvram.V2.Stops

/-!
# Kernels that store sections

What the program relies on in an interface on a kernel that can fail: `KernelStore` collects it,
for the mtd interface on flash partitions and for the file interface on block devices.
-/

namespace Nvram

open Effects Errno

/-- A kernel on which the functions of an interface store sections.  What succeeds says what the
bytes are; a write that does not is an error and tears at most its section. -/
structure KernelStore (lib : Libnvram) (impl : InterfaceImpl) {σ : Type} (K : World sysSig σ) where
  contents : σ → Contents
  Handle : NvramPriv → Prop
  init : ∀ path s, wp K
    (fun r t => contents t = contents s ∧ ∀ data, r = .ok data → Handle ⟨path, data⟩)
    (fun t => contents t = contents s) (impl.init path) s
  size : ∀ priv s, Handle priv → wp K
    (fun r t => contents t = contents s ∧ ∀ n, r = .ok n → n = (contents s priv.path).length)
    (fun t => contents t = contents s) (impl.size priv) s
  read : ∀ priv n s, Handle priv → wp K
    (fun r t => contents t = contents s ∧ ∀ buf, r = .ok buf → buf.val <+: contents s priv.path)
    (fun t => contents t = contents s) (impl.read priv n) s
  write : ∀ priv buf s, Handle priv → wp K
    (fun r t => r = .ok () ∧ Placed priv.path buf (contents s) (contents t) ∨
      (∃ e, r = .error e) ∧ Damaged lib priv.path (contents s) (contents t))
    (fun t => Placed priv.path buf (contents s) (contents t) ∨
      Damaged lib priv.path (contents s) (contents t)) (impl.write priv buf) s
  halt_self : ∀ s o, K.halt s o s

section

variable {table : List MtdPartition} {lib : Libnvram} {s t : Flash table} {path : CString}
  {k : Fin table.length}

theorem powerKernel_halt_self (h : Handler sysSig (Flash table)) (s : Flash table) (o : SysCall) :
    (powerKernel lib h).halt s o s := by
  refine Or.inr ⟨rfl, rfl, ?_⟩
  cases o with
  | write fd buf => exact Or.inl rfl
  | memErase fd start length => exact Or.inl rfl
  | _ => rfl

theorem StoredAt.placed {buf : Bytes} (h : StoredAt k buf s t)
    (hk : labelled table path = some k) : Placed path buf s.contents t.contents := by
  obtain ⟨new, hprefix, -, ht⟩ := h
  exact ⟨new, hprefix, Flash.contents_update hk ht⟩

theorem Torn.damaged (h : Torn lib k s t) (hk : labelled table path = some k) :
    Damaged lib path s.contents t.contents := by
  rcases h with hsame | ⟨new, hnew, -, ht⟩
  · exact Or.inl (Flash.contents_congr hsame)
  · exact Or.inr ⟨new, hnew, Flash.contents_update hk ht⟩

end

/-! ### Flash partitions -/

section

variable {table : List MtdPartition} (lib : Libnvram) (line : Option (WpLine table))
  (htable : table ≠ []) (hblank : ∀ n, ¬ Verifies lib (List.replicate n 0xFF))

/-- The partitions of a table, through the mtd interface. -/
def flashStore : KernelStore lib (nvramMtdInterface (line.map WpLine.path))
    (powerKernel lib (flash line)) where
  contents := Flash.contents
  Handle := MtdHandle line
  init path s := by
    refine wp_mono (fun r t h => ⟨Flash.contents_congr h.2, h.1⟩)
      (fun t h => Flash.contents_congr h)
      (wp_reads (onDescriptors_flash line).reads (onlyReads_nvramMtdInit _ path)
        (fun _ _ _ _ h => powerKernel_listsDevices line h) (under_nvramMtdInit line htable path))
  size priv s hpriv := by
    obtain ⟨k, hk, hmtd, -⟩ := hpriv
    simp only [nvramMtdInterface, hmtd]
    refine ⟨rfl, fun n hn => ?_⟩
    rw [s.contents_of_labelled hk, s.length_content, ← Except.ok.inj hn]
    exact nvramMtdSize_capacity _ _
  read priv n s hpriv := by
    obtain ⟨k, hk, hmtd, -⟩ := hpriv
    simp only [nvramMtdInterface, hmtd]
    have hopen : flash line (.openFile (mtdPath k.val) .rdonly) s =
        (.ok s.nextFd, s.openAt (.partition k)) := by
      simp only [flash, flashFile_mtdPath]
    rw [s.contents_of_labelled hk]
    exact wp_mono (fun r t h => ⟨Flash.contents_congr h.1, h.2⟩)
      (fun t h => Flash.contents_congr h) (wp_fileRead (onDescriptors_flash line) n s hopen)
  write priv buf s hpriv := by
    obtain ⟨k, hk, hmtd, hgpio⟩ := hpriv
    simp only [nvramMtdInterface, hmtd, hgpio]
    refine wp_mono (fun r t h => ?_) (fun t h => ?_) (wp_nvramMtdWrite line hblank buf s)
    · exact h.imp (fun h => ⟨h.1, h.2.placed hk⟩) fun h => ⟨h.1, h.2.damaged hk⟩
    · exact h.imp (fun h => h.placed hk) fun h => h.damaged hk
  halt_self := powerKernel_halt_self (flash line)

end

/-! ### Block devices -/

section

variable {table : List MtdPartition} {lib : Libnvram} {s : Flash table} {path : CString}
  {k : Fin table.length}

theorem onDescriptors_block : OnDescriptors (@blockDevices table) where
  reads o s ho := by
    cases o with
    | write fd buf => cases ho
    | memErase fd start length => cases ho
    | stat path =>
        simp only [blockDevices]
        split <;> rfl
    | openFile path flags =>
        simp only [blockDevices]
        split <;> rfl
    | blkGetSize64 fd =>
        simp only [blockDevices]
        split <;> rfl
    | _ => exact flash_content none ho s
  read _ _ _ := rfl
  write _ _ _ := rfl

/-- The size of a device is its capacity; a path without a device has none. -/
theorem wp_fileSize_block (path : CString) (s : Flash table) :
    wp (powerKernel lib blockDevices)
      (fun r t => t.content = s.content ∧ ∀ n, r = .ok n → n = (s.contents path).length)
      (fun t => t.content = s.content) (fileSize path) s := by
  have herror : ∀ {e : Errno} {t : Flash table}, t.content = s.content →
      t.content = s.content ∧
        ∀ n, (.error e : Except Errno ℕ) = .ok n → n = (s.contents path).length :=
    fun ht => ⟨ht, fun _ h => by cases h⟩
  refine wp_op_reads rfl (fun _ ht => ht) ?_ fun r t hr _ _ ht => ?_
  · cases hk : labelled table path with
    | none =>
        simp only [blockDevices, hk]
        refine ⟨rfl, fun n hn => ?_⟩
        rw [Flash.contents, hk, ← Except.ok.inj hn]
        rfl
    | some k =>
        simp only [blockDevices, hk]
        refine wp_op_reads rfl (fun _ ht => ht) ?_ fun _ _ hf => hf.elim
        show wp _ _ _ (Prog.op (S := sysSig) (.openFile path .rdonly) _) s
        refine wp_op_reads rfl (fun _ ht => ht) ?_ fun r t hr _ _ ht => ?_
        · have hopen : blockDevices (.openFile path .rdonly) s =
              (.ok s.nextFd, s.openAt (.partition k)) := by
            simp only [blockDevices, hk]
          rw [hopen]
          have hfd : (s.openAt (.partition k)).fds s.nextFd = some (.partition k, 0) :=
            Function.update_self ..
          have hlength : (s.contents path).length = (table.get k).capacity :=
            (congrArg List.length (s.contents_of_labelled hk)).trans (s.length_content k)
          refine wp_op_reads rfl (fun _ ht => ht) ?_ fun r t hr _ _ ht => ?_
          · simp only [blockDevices, hfd]
            refine wp_op_reads rfl (fun _ ht => ht) ?_ fun _ _ hf => hf.elim
            show wp _ _ _ (if SIZE_MAX < _ then _ else _) _
            split
            · exact herror rfl
            · refine ⟨rfl, fun n hn => ?_⟩
              have hbound := (table.get k).bound
              rw [hlength, ← Except.ok.inj hn]
              exact UInt64.toNat_ofNat_of_lt' (hbound.trans (by decide))
          · obtain ⟨e, rfl⟩ := hr
            refine wp_op_reads rfl (fun _ hu => hu.trans ht) ?_ fun _ _ hf => hf.elim
            exact herror ht
        · obtain ⟨e, rfl⟩ := hr
          exact herror ht
  · obtain ⟨e, hne, rfl⟩ := hr
    show wp _ _ _ (if e = enoent then _ else _) _
    rw [if_neg hne]
    exact herror ht

theorem wp_fileRead_block (path : CString) (n : ℕ) (s : Flash table) :
    wp (powerKernel lib blockDevices)
      (fun r t => t.content = s.content ∧ ∀ buf, r = .ok buf → buf.val <+: s.contents path)
      (fun t => t.content = s.content) (fileRead path n) s := by
  cases hk : labelled table path with
  | some k =>
      rw [s.contents_of_labelled hk]
      exact wp_fileRead onDescriptors_block n s (by simp only [blockDevices, hk])
  | none =>
      refine wp_op_reads rfl (fun _ ht => ht) ?_ fun r t hr _ _ ht => ?_
      · simp only [blockDevices, hk]
        exact ⟨rfl, fun _ h => by cases h⟩
      · obtain ⟨e, rfl⟩ := hr
        exact ⟨ht, fun _ h => by cases h⟩

/-- A write covers the start of the device, or it is an error and the device is torn. -/
theorem wp_fileWrite_block (hk : labelled table path = some k) (buf : Bytes) (s : Flash table) :
    wp (powerKernel lib blockDevices) (WriteEnds lib k buf s) (WriteStops lib k buf s)
      (fileWrite path buf) s := by
  refine wp_op_reads rfl (fun t ht => Or.inr (Or.inl ht)) ?_ fun r t hr _ _ ht => ?_
  · have hopen : blockDevices (.openFile path .wronlyCreatTrunc) s =
        (.ok s.nextFd, s.openAt (.partition k)) := by
      simp only [blockDevices, hk]
    rw [hopen]
    have hfd : (s.openAt (.partition k)).fds s.nextFd = some (.partition k, 0) :=
      Function.update_self ..
    -- the descriptor is closed, and then the count is looked at
    refine wp_op_write (onDescriptors_block.write _ _ _) hfd ?_ ?_
    · intro t ht
      refine ⟨Or.inl ht, ?_⟩
      refine wp_op_reads rfl (fun u hu => Or.inl (ht.congr hu)) ?_ fun _ _ hf => hf.elim
      exact Or.inl ⟨if_neg fun h => h rfl, ht.congr rfl⟩
    · intro t ht
      refine ⟨Or.inr ht, fun r hr => ?_⟩
      refine wp_op_reads rfl (fun u hu => Or.inr (ht.congr hu)) ?_ fun _ _ hf => hf.elim
      cases r with
      | error e => exact Or.inr ⟨⟨e, rfl⟩, ht.congr rfl⟩
      | ok n =>
          have hshort : n.val ≠ buf.length := fun hn => hr (congrArg Except.ok (Subtype.ext hn))
          exact Or.inr ⟨⟨eio, if_pos hshort⟩, ht.congr rfl⟩
  · obtain ⟨e, rfl⟩ := hr
    exact Or.inr ⟨⟨e, rfl⟩, Or.inl ht⟩

/-- The devices of a table, through the file interface. -/
def blockStore (lib : Libnvram) :
    KernelStore lib nvramFileInterface (powerKernel lib (@blockDevices table)) where
  contents := Flash.contents
  Handle _ := True
  init path s := by
    refine wp_mono (fun r t h => ⟨Flash.contents_congr h, fun _ _ => trivial⟩)
      (fun t h => Flash.contents_congr h) ?_
    exact wp_onlyReads onDescriptors_block (onlyReads_call rfl fun addr => by cases addr <;> trivial)
      (fun _ _ ht => ht) fun _ ht => ht
  size priv s _ :=
    wp_mono (fun _ _ h => ⟨Flash.contents_congr h.1, h.2⟩) (fun _ h => Flash.contents_congr h)
      (wp_fileSize_block priv.path s)
  read priv n s _ :=
    wp_mono (fun _ _ h => ⟨Flash.contents_congr h.1, h.2⟩) (fun _ h => Flash.contents_congr h)
      (wp_fileRead_block priv.path n s)
  write priv buf s _ := by
    cases hk : labelled table priv.path with
    | some k =>
        refine wp_mono (fun r t h => ?_) (fun t h => ?_) (wp_fileWrite_block hk buf s)
        · exact h.imp (fun h => ⟨h.1, h.2.placed hk⟩) fun h => ⟨h.1, h.2.damaged hk⟩
        · exact h.imp (fun h => h.placed hk) fun h => h.damaged hk
    | none =>
        -- there is nothing to open
        have hsame : ∀ {t : Flash table}, t.content = s.content →
            Damaged lib priv.path s.contents t.contents :=
          fun ht => Or.inl (Flash.contents_congr ht)
        refine wp_op_reads rfl (fun t ht => Or.inr (hsame ht)) ?_ fun r t hr _ _ ht => ?_
        · simp only [blockDevices, hk]
          exact Or.inr ⟨⟨eacces, rfl⟩, hsame rfl⟩
        · obtain ⟨e, rfl⟩ := hr
          exact Or.inr ⟨⟨e, rfl⟩, hsame ht⟩
  halt_self := powerKernel_halt_self blockDevices

end

end Nvram
