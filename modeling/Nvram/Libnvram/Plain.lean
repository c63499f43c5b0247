import Nvram.Libnvram.Laws
import Nvram.Library.Codec

/-!
# A plain implementation of the libnvram API

A header of five little-endian words (magic, counter, payload length, payload checksum,
header checksum) in front of the length-prefixed keys and values.  It satisfies everything
that is assumed of libnvram, and the results about the program are evaluated on it.
-/

namespace Nvram

namespace Plain

open Codecs

def magic : ℕ := 0x6e76726d

def checksum (bytes : Bytes) : ℕ := bytes.foldl (fun c b => (31 * c + b.toNat) % 2 ^ 32) 7

/-! ### Entries -/

def entryCodec : Codec Entry :=
  map (pair (blob 4) (blob 4)) (fun p => ⟨p.1, p.2⟩) (fun e => (e.key, e.value)) fun _ => rfl

def payload (list : List Entry) : Bytes := entryCodec.encAll list

theorem entryCodec_enc_ne_nil (e : Entry) : entryCodec.enc e ≠ [] := by
  simp [entryCodec, map, pair, blob, leBytes]

theorem length_le_payload {list : List Entry} {e : Entry} (he : e ∈ list) :
    e.key.length ≤ (payload list).length ∧ e.value.length ≤ (payload list).length := by
  have henc : (entryCodec.enc e).length = 4 + e.key.length + (4 + e.value.length) := by
    simp only [entryCodec, map, pair, blob, List.length_append, leBytes_length]
  have hle : (entryCodec.enc e).length ≤ (payload list).length := by
    obtain ⟨l₁, l₂, rfl⟩ := List.append_of_mem he
    simp only [payload, Codec.encAll, List.flatMap_append, List.flatMap_cons, List.length_append]
    omega
  omega

theorem decAll_payload {list : List Entry} (h : (payload list).length < 2 ^ 32) :
    entryCodec.decAll (payload list).length (payload list) = some list := by
  refine Codec.decAll_encAll _ entryCodec_enc_ne_nil (fun e he => ?_)
    (Codec.length_le_encAll _ entryCodec_enc_ne_nil list)
  have hle := length_le_payload he
  exact ⟨show e.key.length < 256 ^ 4 by omega, show e.value.length < 256 ^ 4 by omega⟩

/-! ### The header -/

def headerFields (counter len sum : ℕ) : Bytes :=
  leBytes 4 magic ++ (leBytes 4 counter ++ (leBytes 4 len ++ leBytes 4 sum))

def headerBytes (counter len sum : ℕ) : Bytes :=
  headerFields counter len sum ++ leBytes 4 (checksum (headerFields counter len sum))

def headerCodec : Codec (ℕ × ℕ × ℕ × ℕ × ℕ) :=
  pair (nat 4) (pair (nat 4) (pair (nat 4) (pair (nat 4) (nat 4))))

/-- The header at the start of `bytes` and the checksum of its payload. -/
def parseHeader (bytes : Bytes) : Option (LibnvramHeader × ℕ) :=
  match headerCodec.dec bytes with
  | some ((m, counter, len, sum, hsum), _) =>
    if m = magic ∧ hsum = checksum (bytes.take 16) then
      some (⟨.list, UInt32.ofNat counter, UInt32.ofNat len⟩, sum)
    else none
  | none => none

@[simp] theorem headerFields_length (counter len sum : ℕ) :
    (headerFields counter len sum).length = 16 := by
  simp [headerFields]

@[simp] theorem headerBytes_length (counter len sum : ℕ) :
    (headerBytes counter len sum).length = 20 := by
  simp [headerBytes]

theorem checksum_lt (bytes : Bytes) : checksum bytes < 2 ^ 32 := by
  have hfold : ∀ (bs : Bytes) (c : ℕ), c < 2 ^ 32 →
      bs.foldl (fun c b => (31 * c + b.toNat) % 2 ^ 32) c < 2 ^ 32 := by
    intro bs
    induction bs with
    | nil => exact fun c hc => hc
    | cons b bs ih => exact fun c _ => ih _ (Nat.mod_lt _ (by decide))
  exact hfold bytes 7 (by decide)

theorem parseHeader_headerBytes {counter len sum : ℕ} (hc : counter < 2 ^ 32) (hl : len < 2 ^ 32)
    (hs : sum < 2 ^ 32) (rest : Bytes) :
    parseHeader (headerBytes counter len sum ++ rest) =
      some (⟨.list, UInt32.ofNat counter, UInt32.ofNat len⟩, sum) := by
  have henc : headerBytes counter len sum ++ rest =
      headerCodec.enc (magic, counter, len, sum, checksum (headerFields counter len sum)) ++
        rest := by
    simp [headerBytes, headerFields, headerCodec, pair, nat]
  have hfits : headerCodec.Fits
      (magic, counter, len, sum, checksum (headerFields counter len sum)) := by
    refine ⟨show magic < 256 ^ 4 by decide, ?_, ?_, ?_, ?_⟩
    · show counter < 256 ^ 4
      omega
    · show len < 256 ^ 4
      omega
    · show sum < 256 ^ 4
      omega
    · show checksum _ < 256 ^ 4
      have h := checksum_lt (headerFields counter len sum)
      omega
  have htake : (headerBytes counter len sum ++ rest).take 16 = headerFields counter len sum := by
    rw [headerBytes, List.append_assoc]
    exact List.take_left' (headerFields_length _ _ _)
  have hdec : headerCodec.dec (headerBytes counter len sum ++ rest) =
      some ((magic, counter, len, sum, checksum (headerFields counter len sum)), rest) := by
    rw [henc]
    exact headerCodec.dec_enc _ rest hfits
  simp [parseHeader, hdec, htake]

/-! ### Images -/

def imageBytes (list : List Entry) (counter : UInt32) : Bytes :=
  headerBytes counter.toNat (payload list).length (checksum (payload list)) ++ payload list

@[simp] theorem imageBytes_length (list : List Entry) (counter : UInt32) :
    (imageBytes list counter).length = 20 + (payload list).length := by
  simp [imageBytes]

def serialize (list : List Entry) (size : UInt32) (hdr : LibnvramHeader) : Serialized size :=
  if h : (imageBytes list hdr.counter).length ≤ size.toNat then
    ⟨imageBytes list hdr.counter, h,
      { hdr with len := UInt32.ofNat (payload list).length }⟩
  else ⟨[], Serialized.nil_fits size, hdr⟩

def verifySection (bytes : Bytes) : LibnvramSection :=
  match parseHeader bytes with
  | some (hdr, sum) =>
    if (bytes.drop 20).length = hdr.len.toNat ∧ checksum (bytes.drop 20) = sum then
      ⟨.allVerified, hdr⟩
    else ⟨.other, hdr⟩
  | none => ⟨.other, ⟨.list, 0, 0⟩⟩

theorem verifySection_imageBytes {list : List Entry} (h : (payload list).length < 2 ^ 32)
    (counter : UInt32) :
    verifySection (imageBytes list counter) =
      ⟨.allVerified, ⟨.list, counter, UInt32.ofNat (payload list).length⟩⟩ := by
  have hparse := parseHeader_headerBytes counter.toNat_lt h (checksum_lt (payload list))
    (payload list)
  have hdrop : (imageBytes list counter).drop 20 = payload list :=
    List.drop_left' (headerBytes_length _ _ _)
  have hlen : (UInt32.ofNat (payload list).length).toNat = (payload list).length :=
    UInt32.toNat_ofNat_of_lt' h
  rw [UInt32.ofNat_toNat] at hparse
  simp only [verifySection, hdrop]
  simp only [imageBytes, hparse, hlen, and_self, if_true]

/-! ### Transactions -/

def initTransaction (a b : Bytes) : LibnvramTransaction :=
  let sa := verifySection a
  let sb := verifySection b
  let active : LibnvramActive :=
    if sa.Verified ∧ (sb.Verified → sb.counter ≤ sa.counter) then ⟨true, false⟩
    else if sb.Verified then ⟨false, true⟩
    else ⟨false, false⟩
  ⟨active, sa, sb⟩

/-- The counter after `counter`, and whether that is a reset. -/
def nextCounter (counter : UInt32) : Bool × UInt32 :=
  if counter.toNat < counterMax then (false, UInt32.ofNat (counter.toNat + 1)) else (true, 1)

def nextTransaction (trans : LibnvramTransaction) (hdr : LibnvramHeader) :
    LibnvramOperation × LibnvramHeader :=
  if trans.active.a then
    let next := nextCounter trans.sectionA.hdr.counter
    (⟨false, next.1⟩, { hdr with counter := next.2 })
  else if trans.active.b then
    let next := nextCounter trans.sectionB.hdr.counter
    (⟨true, next.1⟩, { hdr with counter := next.2 })
  else (⟨true, false⟩, { hdr with counter := 1 })

def updateTransaction (trans : LibnvramTransaction) (op : LibnvramOperation)
    (hdr : LibnvramHeader) : LibnvramTransaction :=
  if op.writeA then { trans with active := ⟨true, false⟩, sectionA := ⟨.allVerified, hdr⟩ }
  else { trans with active := ⟨false, true⟩, sectionB := ⟨.allVerified, hdr⟩ }

end Plain

def plainLibnvram : Libnvram where
  headerLen := 20
  headerLen_pos := by decide
  validateHeader buf := (Plain.parseHeader buf).map (·.1)
  verifySection := Plain.verifySection
  initTransaction := Plain.initTransaction
  nextTransaction := Plain.nextTransaction
  updateTransaction := Plain.updateTransaction
  serializeSize list := UInt32.ofNat (20 + (Plain.payload list).length)
  serialize := Plain.serialize
  deserialize data _ :=
    match Plain.entryCodec.decAll data.length data with
    | some list => .ok list
    | none => .error Errno.einval
  listGet := Keyed.get Entry.key
  listSet list entry := Keyed.put Entry.key entry list
  listRemove list key :=
    if key ∈ list.map Entry.key then some (Keyed.erase Entry.key list key) else none

namespace Plain

/-! ### The laws -/

theorem image_eq {list : List Entry} {hdr : LibnvramHeader}
    (h : plainLibnvram.image list hdr ≠ []) :
    plainLibnvram.image list hdr = imageBytes list hdr.counter ∧
      20 + (payload list).length < 2 ^ 32 := by
  have himage : plainLibnvram.image list hdr =
      (serialize list (UInt32.ofNat (20 + (payload list).length)) hdr).bytes := rfl
  rw [himage] at h ⊢
  unfold serialize at h ⊢
  split
  · next hle =>
      refine ⟨rfl, ?_⟩
      have hsize : (UInt32.ofNat (20 + (payload list).length)).toNat < 2 ^ 32 :=
        UInt32.toNat_lt _
      rw [imageBytes_length] at hle
      exact lt_of_le_of_lt hle hsize
  · next hle =>
      rw [dif_neg hle] at h
      exact absurd rfl h

/-- A list is serialised where its image is shorter than 2^32 bytes. -/
theorem image_ne_nil {list : List Entry} (h : 20 + (payload list).length < 2 ^ 32)
    (hdr : LibnvramHeader) : plainLibnvram.image list hdr ≠ [] := by
  have himage : plainLibnvram.image list hdr =
      (serialize list (UInt32.ofNat (20 + (payload list).length)) hdr).bytes := rfl
  have hsize : (UInt32.ofNat (20 + (payload list).length)).toNat = 20 + (payload list).length :=
    UInt32.toNat_ofNat_of_lt' h
  have hfits : (imageBytes list hdr.counter).length ≤
      (UInt32.ofNat (20 + (payload list).length)).toNat := by
    rw [imageBytes_length, hsize]
  rw [himage, serialize, dif_pos hfits]
  refine List.ne_nil_of_length_pos ?_
  rw [imageBytes_length]
  omega

theorem imageLaws : plainLibnvram.ImageLaws where
  good list hdr h := by
    obtain ⟨himage, hlen⟩ := image_eq h
    have hsize : (UInt32.ofNat (20 + (payload list).length)).toNat =
        20 + (payload list).length := UInt32.toNat_ofNat_of_lt' hlen
    have hplen : (payload list).length < 2 ^ 32 := by omega
    have hpay : (UInt32.ofNat (payload list).length).toNat = (payload list).length :=
      UInt32.toNat_ofNat_of_lt' hplen
    have hverify : plainLibnvram.verifySection (imageBytes list hdr.counter) =
        ⟨.allVerified, ⟨.list, hdr.counter, UInt32.ofNat (payload list).length⟩⟩ :=
      verifySection_imageBytes hplen hdr.counter
    have htake : (imageBytes list hdr.counter).take 20 =
        headerBytes hdr.counter.toNat (payload list).length (checksum (payload list)) ++ [] := by
      rw [List.append_nil]
      exact List.take_left' (headerBytes_length _ _ _)
    have hparse := parseHeader_headerBytes hdr.counter.toNat_lt hplen
      (checksum_lt (payload list)) []
    rw [himage]
    refine ⟨?_, ?_, ⟨⟨.list, hdr.counter, UInt32.ofNat (payload list).length⟩, ?_, ?_⟩, ?_, ?_, ?_⟩
    · rw [imageBytes_length]
      exact hsize.symm
    · rw [imageBytes_length]
      exact Nat.le_add_right _ _
    · show (parseHeader ((imageBytes list hdr.counter).take 20)).map (·.1) = _
      rw [htake, hparse, UInt32.ofNat_toNat]
      rfl
    · show (20 + UInt32.ofNat (payload list).length : UInt32).toNat = _
      rw [UInt32.toNat_add, hpay, imageBytes_length]
      exact Nat.mod_eq_of_lt hlen
    · rw [hverify]
      rfl
    · rw [hverify]
    · have hdrop : (imageBytes list hdr.counter).drop 20 = payload list :=
        List.drop_left' (headerBytes_length _ _ _)
      show (match entryCodec.decAll ((imageBytes list hdr.counter).drop 20).length
          ((imageBytes list hdr.counter).drop 20) with
        | some list => Except.ok list
        | none => .error Errno.einval) = _
      rw [hdrop, decAll_payload hplen]
  empty := by decide

theorem nextCounter_spec (counter : UInt32) (a : Bool) :
    Libnvram.NextCounter counter.toNat ⟨a, (nextCounter counter).1⟩ (nextCounter counter).2 := by
  unfold Libnvram.NextCounter nextCounter
  by_cases h : counter.toNat < counterMax
  · have hlt : counter.toNat + 1 < 2 ^ 32 := by
      unfold counterMax at h
      omega
    simp only [h, if_true]
    exact ⟨trivial, UInt32.toNat_ofNat_of_lt' hlt⟩
  · simp only [h, if_false]
    exact ⟨trivial, by decide⟩

theorem active_cases (a b : Bytes) :
    ((initTransaction a b).active = ⟨true, false⟩ ∧ (verifySection a).Verified ∧
        ((verifySection b).Verified → (verifySection b).counter ≤ (verifySection a).counter)) ∨
      ((initTransaction a b).active = ⟨false, true⟩ ∧ (verifySection b).Verified ∧
        ((verifySection a).Verified → (verifySection a).counter ≤ (verifySection b).counter)) ∨
      ((initTransaction a b).active = ⟨false, false⟩ ∧ ¬ (verifySection a).Verified ∧
        ¬ (verifySection b).Verified) := by
  by_cases ha : (verifySection a).Verified ∧
      ((verifySection b).Verified → (verifySection b).counter ≤ (verifySection a).counter)
  · left
    exact ⟨by simp only [initTransaction, if_pos ha], ha⟩
  · right
    by_cases hb : (verifySection b).Verified
    · left
      refine ⟨by simp only [initTransaction, if_neg ha, if_pos hb], hb, fun hav => ?_⟩
      by_contra hlt
      exact ha ⟨hav, fun _ => by omega⟩
    · right
      refine ⟨by simp only [initTransaction, if_neg ha, if_neg hb], fun hav => ?_, hb⟩
      exact ha ⟨hav, fun h => absurd h hb⟩

theorem transactionLaws : plainLibnvram.TransactionLaws where
  sectionA _ _ := rfl
  sectionB _ _ := rfl
  activeA a b h := by
    have h' : (initTransaction a b).active.a = true := h
    rcases active_cases a b with ⟨_, hv⟩ | ⟨hact, _⟩ | ⟨hact, _⟩
    · exact hv
    · simp [hact] at h'
    · simp [hact] at h'
  activeB a b h := by
    have h' : (initTransaction a b).active.b = true := h
    rcases active_cases a b with ⟨hact, _⟩ | ⟨_, hv⟩ | ⟨hact, _⟩
    · simp [hact] at h'
    · exact hv
    · simp [hact] at h'
  active a b h := by
    show (initTransaction a b).active.a = true ∨ (initTransaction a b).active.b = true
    rcases active_cases a b with ⟨hact, _⟩ | ⟨hact, _⟩ | ⟨_, ha, hb⟩
    · simp [hact]
    · simp [hact]
    · exact absurd h (not_or.mpr ⟨ha, hb⟩)
  activeOne a b h := by
    have h' : (initTransaction a b).active.a = true := h
    show (initTransaction a b).active.b = false
    rcases active_cases a b with ⟨hact, _⟩ | ⟨hact, _⟩ | ⟨hact, _⟩
    · simp [hact]
    · simp [hact] at h'
    · simp [hact]
  nextA trans hdr h := by
    have heq : plainLibnvram.nextTransaction trans hdr =
        (⟨false, (nextCounter trans.sectionA.hdr.counter).1⟩,
          { hdr with counter := (nextCounter trans.sectionA.hdr.counter).2 }) := by
      show nextTransaction trans hdr = _
      simp [nextTransaction, h]
    rw [heq]
    exact ⟨rfl, nextCounter_spec _ _⟩
  nextB trans hdr h := by
    have heq : plainLibnvram.nextTransaction trans hdr =
        (⟨true, (nextCounter trans.sectionB.hdr.counter).1⟩,
          { hdr with counter := (nextCounter trans.sectionB.hdr.counter).2 }) := by
      show nextTransaction trans hdr = _
      simp [nextTransaction, h]
    rw [heq]
    exact ⟨rfl, nextCounter_spec _ _⟩

theorem listLaws : plainLibnvram.ListLaws where
  listGet _ _ _ := rfl
  listSet list entry hlist := Keyed.follows_apply list (.put entry) hlist
  listRemove_none list key _ hnone := if_neg (Keyed.get_eq_none_iff.mp hnone)
  listRemove_some list key entry hlist hsome := by
    have hmem : key ∈ list.map Entry.key := by
      by_contra hnot
      rw [Keyed.get_eq_none_iff.mpr hnot] at hsome
      cases hsome
    exact ⟨_, if_pos hmem, Keyed.follows_apply list (.erase key) hlist⟩

end Plain

/-! ### Samples -/

def sampleList : List Entry := [⟨(lit "k").bytesZ, (lit "v").bytesZ⟩]

/-- The image of `sampleList` under a counter. -/
def sampleImage (counter : UInt32) : Bytes :=
  plainLibnvram.image sampleList ⟨.list, counter, 0⟩

end Nvram
