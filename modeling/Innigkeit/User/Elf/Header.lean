import Innigkeit.Zig.Checked

/-!
The headers of an ELF file: the header at its start, and the table of program
headers that it locates. The two bytes of the identification that give the class
and the byte order are turned into values of enumerations without a catch-all, so
other bytes trap. Once a header is parsed, its program headers can be read
without any trap.
-/

namespace Innigkeit.User.Elf

open Zig List

abbrev Bytes := List UInt8

inductive Endian where
  | little
  | big
  deriving DecidableEq, Repr

def bytesToNat (bytes : Bytes) : ℕ := bytes.foldr (fun byte value => byte.toNat + 256 * value) 0

/-- The unsigned integer of `width` bytes at `offset`, in the given byte order. -/
def field (endian : Endian) (bytes : Bytes) (width offset : ℕ) : ℕ :=
  let field := (bytes.drop offset).take width
  bytesToNat (match endian with | .little => field | .big => field.reverse)

inductive ParseError where
  | truncatedInput
  | invalidMagic
  | invalidVersion
  | invalidEndian
  | invalidClass
  deriving DecidableEq, Repr

namespace HeaderIdent

def MAGIC : Bytes := [0x7f, 0x45, 0x4c, 0x46]

def magic (ident : Bytes) : Bytes := ident.take 4

inductive Class where
  | none
  | elf32
  | elf64
  deriving DecidableEq, Repr

inductive Data where
  | none
  | little
  | big
  deriving DecidableEq, Repr

/-- The class is converted from its byte; the enumeration has no other values. -/
def class_ (ident : Bytes) : Checked Class := do
  match (← index ident 4).toNat with
  | 0 => return .none
  | 1 => return .elf32
  | 2 => return .elf64
  | _ => throw .cast

def endian (ident : Bytes) : Checked Data := do
  match (← index ident 5).toNat with
  | 0 => return .none
  | 1 => return .little
  | 2 => return .big
  | _ => throw .cast

def version (ident : Bytes) : Checked ℕ := do
  return (← index ident 6).toNat

end HeaderIdent

def currentVersion : ℕ := 1

/-- The decoded header. The types that `Header` wraps the fields in have a value for every number,
so a `Header` holds the same numbers. -/
structure RawHeader where
  is64 : Bool
  endian : Endian
  type : ℕ
  machine : ℕ
  entry : ℕ
  programHeaderOffset : ℕ
  programHeaderEntrySize : ℕ
  programHeaderEntryCount : ℕ
  sectionHeaderOffset : ℕ
  sectionHeaderEntrySize : ℕ
  sectionHeaderEntryCount : ℕ
  sectionNameStringTableIndex : ℕ
  deriving DecidableEq, Repr

abbrev Header := RawHeader

/-- The fields of `RawElf64Header` and `RawElf32Header`, which differ in the width of addresses and
offsets. -/
def RawHeader.decode (slice : Bytes) (is64 : Bool) (endian : Endian) : RawHeader :=
  let read := field endian slice
  let fileOffset := if is64 then 8 else 4
  let rest := 24 + 3 * fileOffset
  { is64, endian
    type := read 2 16
    machine := read 2 18
    entry := read fileOffset 24
    programHeaderOffset := read fileOffset (24 + fileOffset)
    programHeaderEntrySize := read 2 (rest + 6)
    programHeaderEntryCount := read 2 (rest + 8)
    sectionHeaderOffset := read fileOffset (24 + 2 * fileOffset)
    sectionHeaderEntrySize := read 2 (rest + 10)
    sectionHeaderEntryCount := read 2 (rest + 12)
    sectionNameStringTableIndex := read 2 (rest + 14) }

def RawHeader.size (is64 : Bool) : ℕ := if is64 then 64 else 52

def innerParse (slice : Bytes) (is64 : Bool) (endian : Endian) : Checked RawHeader := do
  assert (RawHeader.size is64 ≤ slice.length)
  return .decode slice is64 endian

def parse (slice : Bytes) : Checked (Except ParseError RawHeader) := do
  if slice.length < 64 then return .error .truncatedInput
  let ident := slice.take 16
  if HeaderIdent.magic ident ≠ HeaderIdent.MAGIC then return .error .invalidMagic
  if (← HeaderIdent.version ident) ≠ currentVersion then return .error .invalidVersion
  match ← HeaderIdent.endian ident with
  | .none => return .error .invalidEndian
  | .little => parseClass ident .little
  | .big => parseClass ident .big
where
  parseClass (ident : Bytes) (endian : Endian) : Checked (Except ParseError RawHeader) := do
    match ← HeaderIdent.class_ ident with
    | .none => return .error .invalidClass
    | .elf32 => return .ok (← innerParse slice false endian)
    | .elf64 => return .ok (← innerParse slice true endian)

structure ProgramHeader where
  type : ℕ
  flags : ℕ
  offset : ℕ
  fileSize : ℕ
  virtualAddress : ℕ
  physicalAddress : ℕ
  memorySize : ℕ
  alignment : ℕ
  deriving DecidableEq, Repr

namespace ProgramHeader

def load : ℕ := 1

def execute (self : ProgramHeader) : Bool := self.flags.testBit 0

def write (self : ProgramHeader) : Bool := self.flags.testBit 1

def read (self : ProgramHeader) : Bool := self.flags.testBit 2

/-- The sizes of `RawElf64ProgramHeader` and `RawElf32ProgramHeader`. -/
def requiredEntrySize (is64 : Bool) : ℕ := if is64 then 56 else 32

/-- One entry of the table, as the class of the file lays it out. -/
def decode (endian : Endian) (is64 : Bool) (entry : Bytes) : ProgramHeader :=
  let read := field endian entry
  if is64 then
    { type := read 4 0
      flags := read 4 4
      offset := read 8 8
      virtualAddress := read 8 16
      physicalAddress := read 8 24
      fileSize := read 8 32
      memorySize := read 8 40
      alignment := read 8 48 }
  else
    { type := read 4 0
      offset := read 4 4
      virtualAddress := read 4 8
      physicalAddress := read 4 12
      fileSize := read 4 16
      memorySize := read 4 20
      flags := read 4 24
      alignment := read 4 28 }

/-- The reader has to hold a whole entry; that it does not is taken for unreachable. -/
def takeStruct (endian : Endian) (is64 : Bool) (reader : Bytes) : Checked ProgramHeader := do
  assert (requiredEntrySize is64 ≤ reader.length)
  return decode endian is64 reader

end ProgramHeader

def multiplyScalar (size scalar : ℕ) : Checked ℕ := intCast 64 (size * scalar)

structure Iterator where
  header : Header
  index : ℕ := 0
  programHeaderTable : Bytes
  deriving DecidableEq, Repr

def Iterator.next (it : Iterator) : Checked (Option ProgramHeader × Iterator) := do
  if it.header.programHeaderEntryCount ≤ it.index then return (none, it)
  let start ← multiplyScalar it.header.programHeaderEntrySize it.index
  assert (start ≤ it.programHeaderTable.length)
  let header ← ProgramHeader.takeStruct it.header.endian it.header.is64
    (it.programHeaderTable.drop start)
  return (some header, { it with index := it.index + 1 })

structure TableLocation where
  offset : ℕ
  size : ℕ
  deriving DecidableEq, Repr

def programHeaderTableLocation (header : Header) : Checked TableLocation := do
  return ⟨header.programHeaderOffset,
    ← multiplyScalar header.programHeaderEntrySize header.programHeaderEntryCount⟩

inductive IterateError where
  | programHeaderEntryTooSmall
  | programHeaderTableTruncated
  deriving DecidableEq, Repr

def iterateProgramHeaders (header : Header) (table : Bytes) :
    Checked (Except IterateError Iterator) := do
  if header.programHeaderEntrySize < ProgramHeader.requiredEntrySize header.is64 then
    return .error .programHeaderEntryTooSmall
  let size ← multiplyScalar header.programHeaderEntrySize header.programHeaderEntryCount
  if table.length < size then return .error .programHeaderTableTruncated
  return .ok { header, programHeaderTable := table }

theorem bytesToNat_lt (bytes : Bytes) : bytesToNat bytes < 256 ^ bytes.length := by
  induction bytes with
  | nil => decide
  | cons byte bytes ih =>
    have hbyte := byte.toNat_lt
    have hcons : bytesToNat (byte :: bytes) = byte.toNat + 256 * bytesToNat bytes := rfl
    rw [hcons, length_cons, pow_succ]
    omega

theorem field_lt (endian : Endian) (bytes : Bytes) (width offset : ℕ) :
    field endian bytes width offset < 256 ^ width := by
  have hlen : ((bytes.drop offset).take width).length ≤ width := length_take_le ..
  have hpow := Nat.pow_le_pow_right (show 0 < 256 by decide) hlen
  cases endian with
  | little => exact lt_of_lt_of_le (bytesToNat_lt ((bytes.drop offset).take width)) hpow
  | big =>
    have hlt := bytesToNat_lt ((bytes.drop offset).take width).reverse
    rw [length_reverse] at hlt
    exact lt_of_lt_of_le hlt hpow

/-- The numbers of a header are those of its field widths. -/
structure RawHeader.Bounded (header : RawHeader) : Prop where
  entry : header.entry < 2 ^ 64
  programHeaderOffset : header.programHeaderOffset < 2 ^ 64
  programHeaderEntrySize : header.programHeaderEntrySize < 2 ^ 16
  programHeaderEntryCount : header.programHeaderEntryCount < 2 ^ 16

theorem RawHeader.decode_bounded (slice : Bytes) (is64 : Bool) (endian : Endian) :
    (RawHeader.decode slice is64 endian).Bounded := by
  have hwide : 256 ^ (if is64 then 8 else 4) ≤ 2 ^ 64 := by cases is64 <;> decide
  exact ⟨lt_of_lt_of_le (field_lt ..) hwide, lt_of_lt_of_le (field_lt ..) hwide,
    field_lt .., field_lt ..⟩

/-- The class and the byte order are numbers that the enumerations know, as far as `parse` looks
at them. -/
def IdentKnown (slice : Bytes) : Prop :=
  64 ≤ slice.length → slice.take 4 = HeaderIdent.MAGIC → (slice.getD 6 0).toNat = currentVersion →
    (slice.getD 5 0).toNat ≤ 2 ∧ ((slice.getD 5 0).toNat ≠ 0 → (slice.getD 4 0).toNat ≤ 2)

open HeaderIdent

section

variable {slice : Bytes} {header : Header}

theorem index_ident (hlen : 64 ≤ slice.length) {i : ℕ} (hi : i < 16) :
    index (slice.take 16) i = .ok (slice.getD i 0) := by
  have hlt : i < slice.length := by omega
  rw [index_eq_ok, getElem?_take_of_lt hi, getD_eq_getElem?_getD,
    getElem?_eq_getElem hlt, Option.getD_some]

theorem endian_cases (hlen : 64 ≤ slice.length) :
    (slice.getD 5 0).toNat = 0 ∧ endian (slice.take 16) = .ok .none ∨
    (slice.getD 5 0).toNat = 1 ∧ endian (slice.take 16) = .ok .little ∨
    (slice.getD 5 0).toNat = 2 ∧ endian (slice.take 16) = .ok .big ∨
    2 < (slice.getD 5 0).toNat ∧ endian (slice.take 16) = .error .cast := by
  rw [endian, index_ident hlen (by decide), ok_bind]
  generalize (slice.getD 5 0).toNat = byte
  rcases byte with _ | _ | _ | byte
  · exact .inl ⟨rfl, rfl⟩
  · exact .inr (.inl ⟨rfl, rfl⟩)
  · exact .inr (.inr (.inl ⟨rfl, rfl⟩))
  · exact .inr (.inr (.inr ⟨by omega, rfl⟩))

theorem class_cases (hlen : 64 ≤ slice.length) :
    (slice.getD 4 0).toNat = 0 ∧ class_ (slice.take 16) = .ok .none ∨
    (slice.getD 4 0).toNat = 1 ∧ class_ (slice.take 16) = .ok .elf32 ∨
    (slice.getD 4 0).toNat = 2 ∧ class_ (slice.take 16) = .ok .elf64 ∨
    2 < (slice.getD 4 0).toNat ∧ class_ (slice.take 16) = .error .cast := by
  rw [class_, index_ident hlen (by decide), ok_bind]
  generalize (slice.getD 4 0).toNat = byte
  rcases byte with _ | _ | _ | byte
  · exact .inl ⟨rfl, rfl⟩
  · exact .inr (.inl ⟨rfl, rfl⟩)
  · exact .inr (.inr (.inl ⟨rfl, rfl⟩))
  · exact .inr (.inr (.inr ⟨by omega, rfl⟩))

def fileIs64 (slice : Bytes) : Bool := (slice.getD 4 0).toNat == 2

def fileEndian (slice : Bytes) : Endian := if (slice.getD 5 0).toNat = 1 then .little else .big

def fileHeader (slice : Bytes) : Header := .decode slice (fileIs64 slice) (fileEndian slice)

structure Ident (slice : Bytes) : Prop where
  length : 64 ≤ slice.length
  magic : slice.take 4 = HeaderIdent.MAGIC
  version : (slice.getD 6 0).toNat = currentVersion
  endian : (slice.getD 5 0).toNat = 1 ∨ (slice.getD 5 0).toNat = 2
  elfClass : (slice.getD 4 0).toNat = 1 ∨ (slice.getD 4 0).toNat = 2

/-- The outcome of a parse that does not trap: an error, or the header of the file. -/
inductive Parsed (slice : Bytes) : Checked (Except ParseError RawHeader) → Prop
  | error (h : ¬ Ident slice) (e : ParseError) : Parsed slice (.ok (.error e))
  | header (h : Ident slice) : Parsed slice (.ok (.ok (fileHeader slice)))

theorem parseClass_spec (hlen : 64 ≤ slice.length) (hmagic : slice.take 4 = HeaderIdent.MAGIC)
    (hversion : (slice.getD 6 0).toNat = currentVersion)
    (hdata : (slice.getD 5 0).toNat = 1 ∨ (slice.getD 5 0).toNat = 2) {endian : Endian}
    (hendian : fileEndian slice = endian) :
    (slice.getD 4 0).toNat ≤ 2 ∧
        Parsed slice (parse.parseClass slice (slice.take 16) endian) ∨
      2 < (slice.getD 4 0).toNat ∧
        parse.parseClass slice (slice.take 16) endian = .error .cast := by
  have hinner (b : Bool) (hb : fileIs64 slice = b) :
      innerParse slice b endian = .ok (fileHeader slice) := by
    have hsize : RawHeader.size b ≤ slice.length := by
      cases b
      · exact le_trans (by decide) hlen
      · exact hlen
    rw [innerParse, assert_of hsize, ok_bind, pure_eq_ok, fileHeader, hb, hendian]
  rw [parse.parseClass]
  rcases class_cases hlen with ⟨hb, h⟩ | ⟨hb, h⟩ | ⟨hb, h⟩ | ⟨hb, h⟩
  · rw [h]
    exact .inl ⟨by omega, .error (fun hident => by have := hident.elfClass; omega) _⟩
  · rw [h, ok_bind]
    dsimp only
    rw [hinner false (by rw [fileIs64, hb]; rfl)]
    exact .inl ⟨by omega, .header ⟨hlen, hmagic, hversion, hdata, .inl hb⟩⟩
  · rw [h, ok_bind]
    dsimp only
    rw [hinner true (by rw [fileIs64, hb]; rfl)]
    exact .inl ⟨by omega, .header ⟨hlen, hmagic, hversion, hdata, .inr hb⟩⟩
  · rw [h]
    exact .inr ⟨hb, rfl⟩

theorem parse_spec (slice : Bytes) :
    IdentKnown slice ∧ Parsed slice (parse slice) ∨
      ¬ IdentKnown slice ∧ parse slice = .error .cast := by
  rw [parse]
  by_cases hshort : slice.length < 64
  · rw [if_pos hshort]
    exact .inl ⟨fun h => absurd hshort (not_lt.mpr h),
      .error (fun hident => absurd hshort (not_lt.mpr hident.length)) _⟩
  have hlen : 64 ≤ slice.length := not_lt.mp hshort
  have htake : magic (slice.take 16) = slice.take 4 := by
    rw [magic, take_take]
    rfl
  rw [if_neg hshort]
  dsimp only
  rw [htake]
  by_cases hmagic : slice.take 4 = HeaderIdent.MAGIC
  case neg =>
    rw [if_pos hmagic]
    exact .inl ⟨fun _ h => absurd h hmagic, .error (fun hident => hmagic hident.magic) _⟩
  have hversion : version (slice.take 16) = .ok (slice.getD 6 0).toNat := by
    rw [version, index_ident hlen (by decide), ok_bind, pure_eq_ok]
  rw [if_neg (not_not.mpr hmagic), hversion, ok_bind]
  by_cases hcurrent : (slice.getD 6 0).toNat = currentVersion
  case neg =>
    rw [if_pos hcurrent]
    exact .inl ⟨fun _ _ h => absurd h hcurrent, .error (fun hident => hcurrent hident.version) _⟩
  rw [if_neg (not_not.mpr hcurrent)]
  -- a known byte order that is not zero lets the class decide
  have hclass (endian : Endian) (hendian : fileEndian slice = endian)
      (hdata : (slice.getD 5 0).toNat = 1 ∨ (slice.getD 5 0).toNat = 2) :
      IdentKnown slice ∧ Parsed slice (parse.parseClass slice (slice.take 16) endian) ∨
        ¬ IdentKnown slice ∧ parse.parseClass slice (slice.take 16) endian = .error .cast := by
    rcases parseClass_spec hlen hmagic hcurrent hdata hendian with ⟨hc, hparsed⟩ | ⟨hc, htrap⟩
    · exact .inl ⟨fun _ _ _ => ⟨by omega, fun _ => hc⟩, hparsed⟩
    · refine .inr ⟨fun hknown => ?_, htrap⟩
      have := (hknown hlen hmagic hcurrent).2 (by omega)
      omega
  rcases endian_cases hlen with ⟨hb, h⟩ | ⟨hb, h⟩ | ⟨hb, h⟩ | ⟨hb, h⟩
  · rw [h]
    exact .inl ⟨fun _ _ _ => ⟨by omega, by omega⟩,
      .error (fun hident => by have := hident.endian; omega) _⟩
  · rw [h, ok_bind]
    exact hclass .little (by rw [fileEndian, hb]; rfl) (.inl hb)
  · rw [h, ok_bind]
    exact hclass .big (by rw [fileEndian, hb]; rfl) (.inr hb)
  · rw [h]
    exact .inr ⟨fun hknown => absurd (hknown hlen hmagic hcurrent).1 (by omega), rfl⟩

theorem Ident.known (h : Ident slice) : IdentKnown slice := by
  intro _ _ _
  have hendian := h.endian
  have hclass := h.elfClass
  exact ⟨by omega, fun _ => by omega⟩

/-- A header is parsed out of the files with an acceptable identification, and it is the header of
the file. -/
theorem parse_eq_ok : parse slice = .ok (.ok header) ↔
    Ident slice ∧ header = fileHeader slice := by
  rcases parse_spec slice with ⟨-, hparsed⟩ | ⟨hunknown, htrap⟩
  · cases hparse : parse slice with
    | error trap =>
      rw [hparse] at hparsed
      cases hparsed
    | ok result =>
      rw [hparse] at hparsed
      cases hparsed with
      | error hnot e => exact iff_of_false (by simp) fun h => hnot h.1
      | header hident =>
        rw [Except.ok.injEq, Except.ok.injEq]
        exact ⟨fun h => ⟨hident, h.symm⟩, fun h => h.2.symm⟩
  · rw [htrap]
    exact iff_of_false (by simp) fun h => hunknown h.1.known

end

/-- A table that holds all entries that the header counts. -/
structure Iterator.Good (it : Iterator) : Prop where
  bounded : it.header.Bounded
  entrySize : ProgramHeader.requiredEntrySize it.header.is64 ≤ it.header.programHeaderEntrySize
  table : it.header.programHeaderEntrySize * it.header.programHeaderEntryCount ≤
    it.programHeaderTable.length

theorem multiplyScalar_of_lt {size scalar : ℕ} (hsize : size < 2 ^ 16) (hscalar : scalar < 2 ^ 16) :
    multiplyScalar size scalar = .ok (size * scalar) := by
  have hmul : size * scalar < 2 ^ 16 * 2 ^ 16 := Nat.mul_lt_mul'' hsize hscalar
  exact intCast_of_lt (lt_trans hmul (by decide))

def programHeaderAt (header : Header) (table : Bytes) (i : ℕ) : ProgramHeader :=
  .decode header.endian header.is64 (table.drop (header.programHeaderEntrySize * i))

def programHeadersFrom (header : Header) (table : Bytes) (i : ℕ) : List ProgramHeader :=
  (List.range' i (header.programHeaderEntryCount - i)).map (programHeaderAt header table)

variable {header : Header} {table : Bytes}

theorem programHeadersFrom_of_le {i : ℕ} (h : header.programHeaderEntryCount ≤ i) :
    programHeadersFrom header table i = [] := by
  rw [programHeadersFrom, Nat.sub_eq_zero_of_le h]
  rfl

theorem programHeadersFrom_of_lt {i : ℕ} (h : i < header.programHeaderEntryCount) :
    programHeadersFrom header table i =
      programHeaderAt header table i :: programHeadersFrom header table (i + 1) := by
  have hsub : header.programHeaderEntryCount - i =
      header.programHeaderEntryCount - (i + 1) + 1 := by omega
  rw [programHeadersFrom, hsub, range'_succ, map_cons]
  rfl

open ProgramHeader

theorem iterateProgramHeaders_eq (hbounded : header.Bounded)
    (htable : header.programHeaderEntrySize * header.programHeaderEntryCount ≤ table.length) :
    iterateProgramHeaders header table =
      .ok (if header.programHeaderEntrySize < requiredEntrySize header.is64 then
        .error .programHeaderEntryTooSmall else .ok { header, programHeaderTable := table }) := by
  rw [iterateProgramHeaders]
  split
  · rfl
  · rw [multiplyScalar_of_lt hbounded.programHeaderEntrySize hbounded.programHeaderEntryCount,
      ok_bind, if_neg (not_lt.mpr htable)]
    rfl

theorem iterateProgramHeaders_good {it : Iterator} (hbounded : header.Bounded)
    (h : iterateProgramHeaders header table = .ok (.ok it)) :
    it.Good ∧ it = { header, programHeaderTable := table } := by
  rw [iterateProgramHeaders] at h
  split at h
  · cases h
  case isFalse hsize =>
  rw [multiplyScalar_of_lt hbounded.programHeaderEntrySize hbounded.programHeaderEntryCount,
    ok_bind] at h
  split at h
  · cases h
  case isFalse htable =>
  cases h
  exact ⟨⟨hbounded, not_lt.mp hsize, not_lt.mp htable⟩, rfl⟩

theorem Iterator.Good.next {it : Iterator} (h : it.Good) : it.next =
    .ok (if it.header.programHeaderEntryCount ≤ it.index then (none, it)
      else (some (programHeaderAt it.header it.programHeaderTable it.index),
        { it with index := it.index + 1 })) := by
  rw [Iterator.next]
  by_cases hend : it.header.programHeaderEntryCount ≤ it.index
  · rw [if_pos hend, if_pos hend]
    rfl
  have hlt : it.index < it.header.programHeaderEntryCount := not_le.mp hend
  have hcount := h.bounded.programHeaderEntryCount
  have hentry : it.header.programHeaderEntrySize * it.index + it.header.programHeaderEntrySize ≤
      it.header.programHeaderEntrySize * it.header.programHeaderEntryCount := by
    rw [← Nat.mul_succ]
    exact Nat.mul_le_mul_left _ hlt
  have htable := h.table
  have hsize := h.entrySize
  have hstart : it.header.programHeaderEntrySize * it.index ≤ it.programHeaderTable.length := by
    omega
  have hstruct : requiredEntrySize it.header.is64 ≤
      (it.programHeaderTable.drop (it.header.programHeaderEntrySize * it.index)).length := by
    rw [length_drop]
    omega
  rw [if_neg hend, if_neg hend,
    multiplyScalar_of_lt h.bounded.programHeaderEntrySize (lt_trans hlt hcount), ok_bind,
    assert_of hstart, ok_bind, takeStruct, assert_of hstruct]
  rfl

end Innigkeit.User.Elf
