import Nvram.Format.Platform
import Nvram.Library.Codec
import Nvram.Library.Layout

/-!
# The platform header in bytes

`serialize_header` fills a blank buffer with the little-endian members at their offsets, so
its result is the concatenation of the members, the reserved area being blank;
`parse_header` accepts exactly the concatenations that carry their own checksum, the magic and
a terminated name.  Both directions of the round trip follow from the two statements.
-/

namespace Nvram

open Codecs Layout

/-! ### Little-endian words -/

theorem or_shift_eq {a b : ℕ} (i : ℕ) (h : b < 2 ^ i) : a <<< i ||| b = a * 2 ^ i + b := by
  rw [← Nat.shiftLeft_add_eq_or_of_lt h, Nat.shiftLeft_eq]

/-- The bytes that `letou32` and `letou64` pick. -/
theorem span_eq_getD {buf : Bytes} {pos len : ℕ} (h : pos + len ≤ buf.length) :
    span buf pos len = (List.range len).map fun i => buf.getD (pos + i) 0 := by
  refine List.ext_getElem ?_ ?_
  · rw [length_span h, List.length_map, List.length_range]
  · intro i hi hi'
    rw [length_span h] at hi
    simp only [span, List.getElem_take, List.getElem_drop, List.getElem_map, List.getElem_range,
      List.getD_eq_getElem?_getD, List.getElem?_eq_getElem (show pos + i < buf.length by omega),
      Option.getD_some]

theorem letou32_toNat {buf : Bytes} {pos : ℕ} (h : pos + 4 ≤ buf.length) :
    (letou32 buf pos).toNat = leValue (span buf pos 4) := by
  have h0 := (buf.getD pos 0).toNat_lt
  have h1 := (buf.getD (pos + 1) 0).toNat_lt
  have h2 := (buf.getD (pos + 2) 0).toNat_lt
  have h3 := (buf.getD (pos + 3) 0).toNat_lt
  have hspan : span buf pos 4 = [buf.getD pos 0, buf.getD (pos + 1) 0, buf.getD (pos + 2) 0,
      buf.getD (pos + 3) 0] := span_eq_getD h
  rw [hspan, letou32]
  generalize buf.getD pos 0 = b0, buf.getD (pos + 1) 0 = b1, buf.getD (pos + 2) 0 = b2,
    buf.getD (pos + 3) 0 = b3 at h0 h1 h2 h3 ⊢
  have e3 : b3.toNat <<< 24 % 2 ^ 32 = b3.toNat <<< 24 :=
    Nat.mod_eq_of_lt (by rw [Nat.shiftLeft_eq]; omega)
  have e2 : b2.toNat <<< 16 % 2 ^ 32 = b2.toNat <<< 16 :=
    Nat.mod_eq_of_lt (by rw [Nat.shiftLeft_eq]; omega)
  have e1 : b1.toNat <<< 8 % 2 ^ 32 = b1.toNat <<< 8 :=
    Nat.mod_eq_of_lt (by rw [Nat.shiftLeft_eq]; omega)
  simp only [UInt32.toNat_or, UInt32.toNat_shiftLeft, UInt8.toNat_toUInt32, UInt32.reduceToNat,
    Nat.reduceMod]
  rw [e1, e2, e3, Nat.or_assoc, Nat.or_assoc, or_shift_eq 8 h0, or_shift_eq 16 (by omega),
    or_shift_eq 24 (by omega)]
  simp only [leValue]
  omega

theorem letou64_toNat {buf : Bytes} {pos : ℕ} (h : pos + 8 ≤ buf.length) :
    (letou64 buf pos).toNat = leValue (span buf pos 8) := by
  have h0 := (buf.getD pos 0).toNat_lt
  have h1 := (buf.getD (pos + 1) 0).toNat_lt
  have h2 := (buf.getD (pos + 2) 0).toNat_lt
  have h3 := (buf.getD (pos + 3) 0).toNat_lt
  have h4 := (buf.getD (pos + 4) 0).toNat_lt
  have h5 := (buf.getD (pos + 5) 0).toNat_lt
  have h6 := (buf.getD (pos + 6) 0).toNat_lt
  have h7 := (buf.getD (pos + 7) 0).toNat_lt
  have hspan : span buf pos 8 = [buf.getD pos 0, buf.getD (pos + 1) 0, buf.getD (pos + 2) 0,
      buf.getD (pos + 3) 0, buf.getD (pos + 4) 0, buf.getD (pos + 5) 0, buf.getD (pos + 6) 0,
      buf.getD (pos + 7) 0] := span_eq_getD h
  rw [hspan, letou64]
  generalize buf.getD pos 0 = b0, buf.getD (pos + 1) 0 = b1, buf.getD (pos + 2) 0 = b2,
    buf.getD (pos + 3) 0 = b3, buf.getD (pos + 4) 0 = b4, buf.getD (pos + 5) 0 = b5,
    buf.getD (pos + 6) 0 = b6, buf.getD (pos + 7) 0 = b7 at h0 h1 h2 h3 h4 h5 h6 h7 ⊢
  have hfits : ∀ (b : UInt8) (i : ℕ), i ≤ 56 → b.toNat <<< i % 2 ^ 64 = b.toNat <<< i := by
    intro b i hi
    refine Nat.mod_eq_of_lt ?_
    have hb := b.toNat_lt
    calc b.toNat <<< i = b.toNat * 2 ^ i := Nat.shiftLeft_eq ..
      _ < 2 ^ 8 * 2 ^ i := Nat.mul_lt_mul_of_pos_right hb (Nat.two_pow_pos i)
      _ ≤ 2 ^ 8 * 2 ^ 56 := Nat.mul_le_mul_left _ (Nat.pow_le_pow_right (by decide) hi)
  simp only [UInt64.toNat_or, UInt64.toNat_shiftLeft, UInt8.toNat_toUInt64, UInt64.reduceToNat,
    Nat.reduceMod]
  rw [hfits b1 8 (by decide), hfits b2 16 (by decide), hfits b3 24 (by decide),
    hfits b4 32 (by decide), hfits b5 40 (by decide), hfits b6 48 (by decide),
    hfits b7 56 (by decide)]
  simp only [Nat.or_assoc]
  rw [or_shift_eq 8 h0, or_shift_eq 16 (by omega), or_shift_eq 24 (by omega),
    or_shift_eq 32 (by omega), or_shift_eq 40 (by omega), or_shift_eq 48 (by omega),
    or_shift_eq 56 (by omega)]
  simp only [leValue]
  omega

theorem u32tole_eq (v : UInt32) : u32tole v = leBytes 4 v.toNat := by
  have hlow : ∀ n : ℕ, n % 256 &&& 255 = n % 256 := fun n => by
    rw [Nat.and_two_pow_sub_one_eq_mod _ 8, Nat.mod_mod]
  refine List.map_injective_iff.mpr (fun a b => UInt8.toNat_inj.mp) ?_
  simp [u32tole, leBytes, Nat.shiftRight_eq_div_pow, hlow, Nat.div_div_eq_div_mul]

theorem u64tole_eq (v : UInt64) : u64tole v = leBytes 8 v.toNat := by
  have hlow : ∀ n : ℕ, n % 256 &&& 255 = n % 256 := fun n => by
    rw [Nat.and_two_pow_sub_one_eq_mod _ 8, Nat.mod_mod]
  refine List.map_injective_iff.mpr (fun a b => UInt8.toNat_inj.mp) ?_
  simp [u64tole, leBytes, Nat.shiftRight_eq_div_pow, hlow, Nat.div_div_eq_div_mul]

@[simp] theorem u32tole_length (v : UInt32) : (u32tole v).length = 4 := rfl

@[simp] theorem u64tole_length (v : UInt64) : (u64tole v).length = 8 := rfl

/-- Reading four bytes and storing them are inverse. -/
theorem letou32_eq_iff {buf : Bytes} {pos : ℕ} (h : pos + 4 ≤ buf.length) (v : UInt32) :
    letou32 buf pos = v ↔ span buf pos 4 = u32tole v := by
  have hlen := length_span h
  constructor
  · intro hv
    have hbytes := leBytes_leValue (span buf pos 4)
    rw [hlen, ← letou32_toNat h, hv] at hbytes
    rw [u32tole_eq, hbytes]
  · intro hv
    refine UInt32.toNat_inj.mp ?_
    rw [letou32_toNat h, hv, u32tole_eq, leValue_leBytes v.toNat_lt]

theorem letou64_eq_iff {buf : Bytes} {pos : ℕ} (h : pos + 8 ≤ buf.length) (v : UInt64) :
    letou64 buf pos = v ↔ span buf pos 8 = u64tole v := by
  have hlen := length_span h
  constructor
  · intro hv
    have hbytes := leBytes_leValue (span buf pos 8)
    rw [hlen, ← letou64_toNat h, hv] at hbytes
    rw [u64tole_eq, hbytes]
  · intro hv
    refine UInt64.toNat_inj.mp ?_
    rw [letou64_toNat h, hv, u64tole_eq, leValue_leBytes v.toNat_lt]

/-! ### The parts of a header -/

/-- Widths of the members in front of the checksum, in the order of `struct platform_header`. -/
def headerWidths : List ℕ := [4, 4, 64, 4, 4, 4, 4, 8, 4, 4, 4, 4, 904, 4]

namespace PlatformHeader

/-- The members in front of the checksum as they are stored, with what the reserved area
holds. -/
def parts (header : PlatformHeader) (rsvd : Bytes) : List Bytes :=
  [u32tole header.hdrMagic, u32tole header.hdrVersion, header.name,
    u32tole header.ddrcBlobOffset, u32tole header.ddrcBlobSize, u32tole header.ddrcBlobType,
    u32tole header.ddrcBlobCrc32, u64tole header.ddrcSize, u32tole header.config1,
    u32tole header.config2, u32tole header.config3, u32tole header.config4, rsvd,
    u32tole header.totalSize]

/-- A header without its checksum. -/
def body (header : PlatformHeader) (rsvd : Bytes) : Bytes := (header.parts rsvd).flatten

theorem map_length_parts (header : PlatformHeader) {rsvd : Bytes} (h : rsvd.length = 904) :
    (header.parts rsvd).map List.length = headerWidths := by
  simp only [parts, List.map_cons, List.map_nil, u32tole_length, u64tole_length,
    header.nameLength, h, headerWidths]

theorem body_length (header : PlatformHeader) {rsvd : Bytes} (h : rsvd.length = 904) :
    (header.body rsvd).length = offsetHdrCrc32 := by
  rw [body, List.length_flatten, header.map_length_parts h]
  rfl

end PlatformHeader

/-- The parts of a buffer are what stands at the offsets of the members. -/
theorem split_headerWidths (buf : Bytes) :
    split headerWidths buf =
      [span buf offsetHdrMagic 4, span buf offsetHdrVersion 4, span buf offsetName 64,
        span buf offsetDdrcBlobOffset 4, span buf offsetDdrcBlobSize 4,
        span buf offsetDdrcBlobType 4, span buf offsetDdrcBlobCrc32 4, span buf offsetDdrcSize 8,
        span buf offsetConfig1 4, span buf offsetConfig2 4, span buf offsetConfig3 4,
        span buf offsetConfig4 4, span buf offsetRsvd 904, span buf offsetTotalSize 4] := by
  simp only [headerWidths, split, List.drop_drop, span]
  rfl

section

variable (crc32 : Bytes → UInt32)

/-! ### Serializing -/

/-- The reserved area as `serialize_header` leaves it. -/
def blankRsvd : Bytes := List.replicate 904 0

theorem blankRsvd_length : blankRsvd.length = 904 := List.length_replicate

/-- The checksum that `serialize_header` stores. -/
def PlatformHeader.checksum (header : PlatformHeader) : UInt32 := crc32 (header.body blankRsvd)

/-- The members in front of the reserved area with their offsets. -/
def PlatformHeader.stores (header : PlatformHeader) : List (ℕ × Bytes) :=
  [(offsetHdrMagic, u32tole header.hdrMagic), (offsetHdrVersion, u32tole header.hdrVersion),
    (offsetName, header.name), (offsetDdrcBlobOffset, u32tole header.ddrcBlobOffset),
    (offsetDdrcBlobSize, u32tole header.ddrcBlobSize),
    (offsetDdrcBlobType, u32tole header.ddrcBlobType),
    (offsetDdrcBlobCrc32, u32tole header.ddrcBlobCrc32), (offsetDdrcSize, u64tole header.ddrcSize),
    (offsetConfig1, u32tole header.config1), (offsetConfig2, u32tole header.config2),
    (offsetConfig3, u32tole header.config3), (offsetConfig4, u32tole header.config4)]

theorem PlatformHeader.storeAll_stores (header : PlatformHeader) :
    splice (storeAll (List.replicate PLATFORM_HEADER_SIZE 0) header.stores) offsetTotalSize
      (u32tole header.totalSize) = filled 0 PLATFORM_HEADER_SIZE (header.parts blankRsvd) := by
  have hbody := header.body_length blankRsvd_length
  have hplaced : Placed 0 header.stores := by
    simp [Placed, stores, header.nameLength, offsetHdrMagic, offsetHdrVersion, offsetName,
      offsetDdrcBlobOffset, offsetDdrcBlobSize, offsetDdrcBlobType, offsetDdrcBlobCrc32,
      offsetDdrcSize, offsetConfig1, offsetConfig2, offsetConfig3, offsetConfig4]
  have hparts : header.parts blankRsvd =
      header.stores.map Prod.snd ++ [blankRsvd] ++ [u32tole header.totalSize] := rfl
  have hend : (header.stores.map Prod.snd).flatten.length = offsetRsvd := by
    rw [PlatformHeader.body, hparts] at hbody
    simp only [List.flatten_append, List.flatten_singleton, List.length_append, u32tole_length,
      blankRsvd_length, offsetHdrCrc32] at hbody
    rw [offsetRsvd]
    omega
  have hgap : (header.stores.map Prod.snd ++ [blankRsvd]).flatten.length = offsetTotalSize := by
    rw [List.flatten_append, List.flatten_singleton, List.length_append, hend, blankRsvd_length]
    rfl
  have hstores : storeAll (filled 0 PLATFORM_HEADER_SIZE []) header.stores =
      filled 0 PLATFORM_HEADER_SIZE (header.stores.map Prod.snd) :=
    storeAll_filled hplaced (by rw [List.nil_append, hend]; decide)
  rw [← filled_nil, hstores, ← filled_gap (k := 904) (by rw [hend]; decide), hparts]
  exact splice_filled hgap (by rw [u32tole_length]; decide)

/-- The members in order, the reserved area blank, and the checksum of it all. -/
theorem serializeHeader_eq (header : PlatformHeader) :
    serializeHeader crc32 header = header.body blankRsvd ++ u32tole (header.checksum crc32) := by
  have hbody := header.body_length blankRsvd_length
  have hserialize : serializeHeader crc32 header =
      let buf := splice (storeAll (List.replicate PLATFORM_HEADER_SIZE 0) header.stores)
        offsetTotalSize (u32tole header.totalSize)
      splice buf offsetHdrCrc32 (u32tole (crc32 (buf.take offsetHdrCrc32))) := rfl
  rw [hserialize, header.storeAll_stores]
  dsimp only
  rw [take_filled hbody, splice_filled hbody (by rw [u32tole_length]; decide), filled_eq_flatten,
    List.flatten_append, List.flatten_singleton]
  · rfl
  · rw [List.flatten_append, List.flatten_singleton, List.length_append, u32tole_length]
    exact congrArg (· + 4) hbody

/-! ### Parsing -/

/-- What `parse_header` checks of a header beside the checksum. -/
structure PlatformHeader.WellFormed (header : PlatformHeader) : Prop where
  magic : header.hdrMagic = HEADER_MAGIC
  terminated : (0 : UInt8) ∈ header.name

/-- The members of the header at their offsets, as `parse_header` reads them. -/
def PlatformHeader.AtOffsets (header : PlatformHeader) (buf : Bytes) : Prop :=
  split headerWidths buf = header.parts header.rsvd ∧
    span buf offsetHdrCrc32 4 = u32tole header.hdrCrc32

theorem PlatformHeader.atOffsets_iff (header : PlatformHeader) {buf : Bytes}
    (hsize : buf.length = PLATFORM_HEADER_SIZE) :
    header.AtOffsets buf ↔ buf = header.body header.rsvd ++ u32tole header.hdrCrc32 := by
  have hbody := header.body_length header.rsvdLength
  have hwidths := header.map_length_parts header.rsvdLength
  have hlast : span buf offsetHdrCrc32 4 = buf.drop offsetHdrCrc32 := by
    refine List.take_of_length_le ?_
    rw [List.length_drop, hsize]
    decide
  constructor
  · intro ⟨hparts, hcrc⟩
    have hfront : header.body header.rsvd = buf.take offsetHdrCrc32 := by
      rw [body, ← hparts]
      exact flatten_split headerWidths buf
    rw [hfront, ← hcrc, hlast, List.take_append_drop]
  · intro hbuf
    refine ⟨?_, ?_⟩
    · rw [hbuf, ← hwidths]
      exact split_flatten_append _ _
    · rw [hlast, hbuf, ← hbody, List.drop_left]

/-- The header with the members that `parse_header` reads. -/
def headerAt (buf : Bytes) (hsize : buf.length = PLATFORM_HEADER_SIZE) : PlatformHeader where
  hdrMagic := letou32 buf offsetHdrMagic
  hdrVersion := letou32 buf offsetHdrVersion
  name := span buf offsetName 64
  nameLength := length_span (by rw [hsize]; decide)
  ddrcBlobOffset := letou32 buf offsetDdrcBlobOffset
  ddrcBlobSize := letou32 buf offsetDdrcBlobSize
  ddrcBlobType := letou32 buf offsetDdrcBlobType
  ddrcBlobCrc32 := letou32 buf offsetDdrcBlobCrc32
  ddrcSize := letou64 buf offsetDdrcSize
  config1 := letou32 buf offsetConfig1
  config2 := letou32 buf offsetConfig2
  config3 := letou32 buf offsetConfig3
  config4 := letou32 buf offsetConfig4
  rsvd := span buf offsetRsvd 904
  rsvdLength := length_span (by rw [hsize]; decide)
  totalSize := letou32 buf offsetTotalSize
  hdrCrc32 := letou32 buf offsetHdrCrc32

theorem parseHeader_of_size {buf : Bytes} (hsize : buf.length = PLATFORM_HEADER_SIZE) :
    parseHeader crc32 buf =
      if (headerAt buf hsize).hdrCrc32 ≠ crc32 (buf.take offsetHdrCrc32) then none
      else if (headerAt buf hsize).hdrMagic ≠ HEADER_MAGIC then none
      else if (0 : UInt8) ∉ (headerAt buf hsize).name then none
      else some (headerAt buf hsize) := by
  rw [parseHeader, dif_pos hsize]
  rfl

/-- The members at the offsets are the members of one header. -/
theorem atOffsets_iff_eq_headerAt {buf : Bytes} (hsize : buf.length = PLATFORM_HEADER_SIZE)
    (header : PlatformHeader) : header.AtOffsets buf ↔ headerAt buf hsize = header := by
  have hword : ∀ pos, pos ≤ 1020 → ∀ v, letou32 buf pos = v ↔ span buf pos 4 = u32tole v := by
    intro pos hpos v
    refine letou32_eq_iff ?_ v
    rw [hsize, PLATFORM_HEADER_SIZE]
    omega
  have hlong : ∀ v, letou64 buf offsetDdrcSize = v ↔ span buf offsetDdrcSize 8 = u64tole v :=
    letou64_eq_iff (by rw [hsize]; decide)
  cases header
  simp only [PlatformHeader.AtOffsets, split_headerWidths, PlatformHeader.parts, headerAt,
    List.cons.injEq, PlatformHeader.mk.injEq, hlong, and_true, and_assoc,
    hword offsetHdrMagic (by decide), hword offsetHdrVersion (by decide),
    hword offsetDdrcBlobOffset (by decide), hword offsetDdrcBlobSize (by decide),
    hword offsetDdrcBlobType (by decide), hword offsetDdrcBlobCrc32 (by decide),
    hword offsetConfig1 (by decide), hword offsetConfig2 (by decide),
    hword offsetConfig3 (by decide), hword offsetConfig4 (by decide),
    hword offsetTotalSize (by decide), hword offsetHdrCrc32 (by decide)]

/-- `parse_header` accepts what consists of the members of a well-formed header in order and
their checksum, and gives that header. -/
theorem parseHeader_eq_some_iff {buf : Bytes} {header : PlatformHeader} :
    parseHeader crc32 buf = some header ↔
      buf = header.body header.rsvd ++ u32tole header.hdrCrc32 ∧
        header.hdrCrc32 = crc32 (header.body header.rsvd) ∧ header.WellFormed := by
  by_cases hsize : buf.length = PLATFORM_HEADER_SIZE
  · rw [← header.atOffsets_iff hsize, atOffsets_iff_eq_headerAt hsize, parseHeader_of_size _ hsize]
    have hat : (headerAt buf hsize).AtOffsets buf := (atOffsets_iff_eq_headerAt hsize _).mpr rfl
    have hfront : (headerAt buf hsize).body (headerAt buf hsize).rsvd =
        buf.take offsetHdrCrc32 := by
      rw [PlatformHeader.body, ← hat.1]
      exact flatten_split headerWidths buf
    constructor
    · intro h
      split_ifs at h with hcrc hmagic hname
      obtain rfl := Option.some.inj h
      rw [hfront]
      exact ⟨rfl, not_not.mp hcrc, not_not.mp hmagic, hname⟩
    · intro ⟨heq, hcrc, hmagic, hname⟩
      subst heq
      rw [hfront] at hcrc
      rw [if_neg (not_not.mpr hcrc), if_neg (not_not.mpr hmagic), if_neg (not_not.mpr hname)]
  · have hlong : buf ≠ header.body header.rsvd ++ u32tole header.hdrCrc32 := by
      intro h
      have hlen := congrArg List.length h
      rw [List.length_append, header.body_length header.rsvdLength, u32tole_length] at hlen
      exact hsize hlen
    rw [parseHeader, dif_neg hsize]
    exact ⟨fun h => (by cases h), fun h => absurd h.1 hlong⟩

/-! ### Round trips -/

theorem serializeHeader_length (header : PlatformHeader) :
    (serializeHeader crc32 header).length = PLATFORM_HEADER_SIZE := by
  rw [serializeHeader_eq, List.length_append, header.body_length blankRsvd_length, u32tole_length]
  rfl

/-- The stored checksum is that of the bytes in front of it. -/
theorem crc32_take_serializeHeader (header : PlatformHeader) :
    crc32 ((serializeHeader crc32 header).take offsetHdrCrc32) = header.checksum crc32 := by
  rw [serializeHeader_eq, List.take_left' (header.body_length blankRsvd_length)]
  rfl

/-- A header as it comes back: the reserved area blank and the checksum computed. -/
def PlatformHeader.stored (header : PlatformHeader) : PlatformHeader :=
  { header with
    rsvd := blankRsvd
    rsvdLength := blankRsvd_length
    hdrCrc32 := header.checksum crc32 }

theorem headerData_stored (header : PlatformHeader) (f : FieldName) :
    headerData (header.stored crc32) f = headerData header f := by
  cases f <;> rfl

theorem parseHeader_serializeHeader {header : PlatformHeader} (h : header.WellFormed) :
    parseHeader crc32 (serializeHeader crc32 header) = some (header.stored crc32) :=
  parseHeader_eq_some_iff crc32 |>.mpr ⟨serializeHeader_eq crc32 header, rfl, h.magic, h.terminated⟩

/-- The parts in front of the reserved area do not depend on it. -/
theorem PlatformHeader.body_eq (header : PlatformHeader) (rsvd : Bytes) :
    header.body rsvd =
      (header.stores.map Prod.snd).flatten ++ (rsvd ++ u32tole header.totalSize) := by
  have hparts : header.parts rsvd =
      header.stores.map Prod.snd ++ [rsvd, u32tole header.totalSize] := rfl
  rw [body, hparts, List.flatten_append]
  simp

theorem PlatformHeader.length_stores (header : PlatformHeader) :
    (header.stores.map Prod.snd).flatten.length = offsetRsvd := by
  have hbody := header.body_length blankRsvd_length
  rw [header.body_eq, List.length_append, List.length_append, blankRsvd_length,
    u32tole_length] at hbody
  have hcrc : offsetHdrCrc32 = offsetRsvd + (904 + 4) := rfl
  omega

/-- The header codec in both directions. -/
theorem platform_header_codec :
    (∀ header : PlatformHeader, header.hdrMagic = HEADER_MAGIC → (0 : UInt8) ∈ header.name →
      ∃ loaded, parseHeader crc32 (serializeHeader crc32 header) = some loaded ∧
        loaded = { header with
          rsvd := List.replicate 904 0
          rsvdLength := List.length_replicate
          hdrCrc32 := crc32 ((serializeHeader crc32 header).take offsetHdrCrc32) }) ∧
    ∀ (buf : Bytes) (header : PlatformHeader), parseHeader crc32 buf = some header →
      (span buf offsetRsvd 904 = List.replicate 904 0 → serializeHeader crc32 header = buf) ∧
      (serializeHeader crc32 header).length = buf.length ∧
      ∀ i, i < offsetRsvd ∨ offsetTotalSize ≤ i ∧ i < offsetHdrCrc32 →
        (serializeHeader crc32 header)[i]? = buf[i]? := by
  refine ⟨?_, ?_⟩
  · intro header hmagic hname
    refine ⟨_, parseHeader_serializeHeader crc32 ⟨hmagic, hname⟩, ?_⟩
    rw [crc32_take_serializeHeader crc32 header]
    rfl
  · intro buf header h
    obtain ⟨hbuf, hcrc, -⟩ := (parseHeader_eq_some_iff crc32).mp h
    have hfront := header.length_stores
    have hrsvd := header.rsvdLength
    have hblank := blankRsvd_length
    have hnew := serializeHeader_eq crc32 header
    rw [header.body_eq] at hnew
    rw [header.body_eq] at hbuf
    refine ⟨?_, ?_, ?_⟩
    · intro hzero
      have hspan : span buf offsetRsvd 904 = header.rsvd := by
        rw [span, hbuf, List.append_assoc, ← hfront, List.drop_left, List.append_assoc, ← hrsvd,
          List.take_left]
      have hrsvd : header.rsvd = blankRsvd := hspan.symm.trans hzero
      rw [hnew, hbuf, PlatformHeader.checksum, hcrc, hrsvd]
    · rw [hnew, hbuf]
      simp only [List.length_append, hrsvd, hblank, u32tole_length]
    · intro i hi
      rw [hnew, hbuf, List.append_assoc, List.append_assoc, List.append_assoc, List.append_assoc]
      by_cases hlow : i < offsetRsvd
      · rw [List.getElem?_append_left (by omega), List.getElem?_append_left (by omega)]
      · -- behind the reserved area, in front of the checksum
        obtain ⟨hge, hlt⟩ : offsetTotalSize ≤ i ∧ i < offsetHdrCrc32 := by
          rcases hi with hi | hi
          · exact absurd hi hlow
          · exact hi
        have htotal : offsetTotalSize = offsetRsvd + 904 := rfl
        have hcrcPos : offsetHdrCrc32 = offsetRsvd + 904 + 4 := rfl
        have hword := u32tole_length header.totalSize
        rw [List.getElem?_append_right (by omega), List.getElem?_append_right (by omega),
          List.getElem?_append_left (by omega),
          List.getElem?_append_right (by omega), List.getElem?_append_right (by omega),
          List.getElem?_append_left (by omega), hrsvd, hblank]

/-- A header with one configuration word set. -/
def sampleHeader : PlatformHeader :=
  { PlatformHeader.zero with hdrMagic := HEADER_MAGIC, config1 := 0x12345678 }

theorem platform_header_codec_sample :
    ∃ loaded, parseHeader zlibCrc32 (serializeHeader zlibCrc32 sampleHeader) = some loaded ∧
      loaded.config1 = 0x12345678 ∧ loaded.hdrCrc32 = 0x43E4354A ∧
      serializeHeader zlibCrc32 loaded = serializeHeader zlibCrc32 sampleHeader := by
  obtain ⟨hserialized, hparsed⟩ := platform_header_codec zlibCrc32
  obtain ⟨loaded, hparse, rfl⟩ := hserialized sampleHeader rfl (by decide)
  exact ⟨_, hparse, rfl, by decide +kernel, (hparsed _ _ hparse).1 (by decide +kernel)⟩

end

end Nvram
