import Innigkeit.Zig.Checked

/-!
The LZ4 block compressor for pages. A block is a list of sequences: a token, some
literals, and a match that is copied from what was written before; the last one
has literals only. Both directions write their buffer from the front, so a buffer
is its capacity and the bytes written so far, and the reader of a block holds the
bytes that it has not read yet. The invariant of the compressor is that what it
has written decompresses to the input up to the start of the current literals.
-/

namespace Innigkeit.Memory.Compress

open Zig List Function Nat UInt8

abbrev Byte := UInt8

def PAGE_SIZE : ℕ := 4096

def MAX_COMPRESSED_SIZE : ℕ := PAGE_SIZE + PAGE_SIZE / 255 + 16

inductive Error where
  | bufferTooSmall
  | corruptInput
  deriving DecidableEq, Repr

def HASH_BITS : ℕ := 12

def HASH_SIZE : ℕ := 2 ^ HASH_BITS

def HASH_SHIFT : ℕ := 32 - HASH_BITS

def MIN_MATCH : ℕ := 4

def LAST_LITERALS : ℕ := 5

def putAll (cap : ℕ) (out bytes : List Byte) : Checked (List Byte) :=
  if out.length + bytes.length ≤ cap then .ok (out ++ bytes) else .error .bounds

def put (cap : ℕ) (out : List Byte) (b : ℕ) : Checked (List Byte) := do
  putAll cap out [ofNat (← intCast 8 b)]

def slice (src : List Byte) (pos len : ℕ) : Checked (List Byte) :=
  if pos + len ≤ src.length then .ok ((src.drop pos).take len) else .error .bounds

/-- The rest of a length, in bytes of 255 and a smaller last one. -/
def putLength (cap : ℕ) (out : List Byte) (rem : ℕ) : Checked (List Byte) :=
  if 255 ≤ rem then do
    let out ← put cap out 255
    putLength cap out (rem - 255)
  else put cap out rem
termination_by rem
decreasing_by omega

/-- What does not fit into the half of the token. -/
def putExtension (cap : ℕ) (out : List Byte) (n : ℕ) : Checked (List Byte) :=
  if 15 ≤ n then putLength cap out (n - 15) else .ok out

def emitSequence (src : List Byte) (anchor litLen matchExtra offset cap : ℕ) (out : List Byte) :
    Checked (List Byte) := do
  let out ← put cap out (min 15 litLen <<< 4 ||| min 15 matchExtra)
  let out ← putExtension cap out litLen
  let out ← putAll cap out (← slice src anchor litLen)
  let out ← putAll cap out [ofNat (offset % 256), ofNat (offset / 256)]
  putExtension cap out matchExtra

def emitLastLiterals (src : List Byte) (anchor litLen cap : ℕ) (out : List Byte) :
    Checked (List Byte) := do
  let out ← put cap out (min 15 litLen <<< 4)
  let out ← putExtension cap out litLen
  putAll cap out (← slice src anchor litLen)

def hash4 (v : ℕ) : ℕ := (0x9E3779B1 * v % 2 ^ 32) >>> HASH_SHIFT

/-- Four bytes, the lowest first. -/
def readU32 (src : List Byte) (pos : ℕ) : Checked ℕ := do
  return (← slice src pos 4).foldr (fun b n => b.toNat + 256 * n) 0

/-- The loop that extends a match forward; no match is longer than the source. -/
def extendMatch (src : List Byte) (refPos ip : ℕ) : ℕ → ℕ → Checked ℕ
  | 0, matchLen => .ok matchLen
  | fuel + 1, matchLen => do
    let last ← sub src.length LAST_LITERALS
    if ip + matchLen < last + MIN_MATCH then
      let a ← index src (refPos + matchLen)
      let b ← index src (ip + matchLen)
      if a = b then extendMatch src refPos ip fuel (matchLen + 1) else return matchLen
    else return matchLen

def wrappingSub (a b : ℕ) : ℕ := (a + 2 ^ 64 - b) % 2 ^ 64

structure Cursor where
  ip : ℕ
  anchor : ℕ
  table : ℕ → ℕ
  out : List Byte

/-- Whether the bytes at an earlier position are the ones at the cursor. -/
def matchFound (src : List Byte) (refPos v offset : ℕ) : Checked Bool := do
  if 0 < offset ∧ offset ≤ 0xFFFF then
    let last ← sub src.length MIN_MATCH
    if refPos < last + 1 then return decide ((← readU32 src refPos) = v) else return false
  else return false

/-- One round of the loop of `compress`. -/
def step (src : List Byte) (cap : ℕ) (c : Cursor) : Checked Cursor := do
  let v ← readU32 src c.ip
  assert (hash4 v < HASH_SIZE)
  let refPos := c.table (hash4 v)
  let table := Function.update c.table (hash4 v) (← intCast 32 c.ip)
  let offset := wrappingSub c.ip refPos
  if ← matchFound src refPos v offset then
    let matchLen ← extendMatch src refPos c.ip src.length MIN_MATCH
    let offset ← intCast 16 offset
    let out ← emitSequence src c.anchor (c.ip - c.anchor) (matchLen - MIN_MATCH) offset cap c.out
    return ⟨c.ip + matchLen, c.ip + matchLen, table, out⟩
  else return { c with ip := c.ip + 1, table }

/-- Every round moves the cursor, so that as many rounds as the limit are enough. -/
def compressLoop (src : List Byte) (cap limit : ℕ) : ℕ → Cursor → Checked Cursor
  | 0, c => .ok c
  | fuel + 1, c => do
    if c.ip < limit then compressLoop src cap limit fuel (← step src cap c) else return c

/-- The bytes written to a buffer of `cap` bytes. -/
def compress (src : List Byte) (cap : ℕ) : Checked (Except Error (List Byte)) := do
  if cap < MAX_COMPRESSED_SIZE then return .error .bufferTooSmall
  else if src.length = 0 then return .ok []
  else
    let limit := src.length - LAST_LITERALS
    let c ← compressLoop src cap limit limit ⟨0, 0, fun _ => 0, []⟩
    return .ok (← emitLastLiterals src c.anchor (src.length - c.anchor) cap c.out)

def readLength : List Byte → ℕ → ℕ × List Byte
  | [], n => (n, [])
  | extra :: rest, n =>
    if extra ≠ 255 then (n + extra.toNat, rest) else readLength rest (n + extra.toNat)

/-- A length that begins in half a token. -/
def readExtended (nibble base : ℕ) (rest : List Byte) : ℕ × List Byte :=
  if nibble = 15 then readLength rest (nibble + base) else (nibble + base, rest)

/-- Byte by byte: a match may overlap what it writes. -/
def copyMatch (cap offset : ℕ) : ℕ → List Byte → Checked (List Byte)
  | 0, out => .ok out
  | n + 1, out => do
    let b ← index out (out.length - offset)
    copyMatch cap offset n (← putAll cap out [b])

/-- Every round reads a token, so that as many rounds as there are bytes are enough. -/
def decompressLoop (cap : ℕ) : ℕ → List Byte → List Byte → Checked (Except Error (List Byte))
  | 0, _, out => .ok (.ok out)
  | _ + 1, [], out => .ok (.ok out)
  | fuel + 1, token :: rest, out =>
    let lit := readExtended (token.toNat >>> 4) 0 rest
    if cap < out.length + lit.1 then .ok (.error .bufferTooSmall)
    else if lit.2.length < lit.1 then .ok (.error .corruptInput)
    else
      let out := out ++ lit.2.take lit.1
      match lit.2.drop lit.1 with
      | [] => .ok (.ok out)
      | [_] => .ok (.error .corruptInput)
      | lo :: hi :: rest =>
        let offset := lo.toNat + 256 * hi.toNat
        if offset = 0 ∨ out.length < offset then .ok (.error .corruptInput)
        else
          let found := readExtended (token.toNat &&& 0x0F) MIN_MATCH rest
          if cap < out.length + found.1 then .ok (.error .bufferTooSmall)
          else do decompressLoop cap fuel found.2 (← copyMatch cap offset found.1 out)

def decompress (src : List Byte) (cap : ℕ) : Checked (Except Error (List Byte)) :=
  decompressLoop cap src.length src []

section

variable {cap rem n base fuel offset extra : ℕ} {out rest lits : List Byte}

def lengthBytes (rem : ℕ) : List Byte :=
  if 255 ≤ rem then 255 :: lengthBytes (rem - 255) else [ofNat rem]
termination_by rem
decreasing_by omega

def extension (n : ℕ) : List Byte := if 15 ≤ n then lengthBytes (n - 15) else []

theorem length_lengthBytes (rem : ℕ) : (lengthBytes rem).length = rem / 255 + 1 := by
  induction rem using Nat.strongRecOn with
  | ind rem ih =>
    rw [lengthBytes]
    split
    · rw [length_cons, ih (rem - 255) (by omega)]
      omega
    · rw [length_singleton]
      omega

theorem length_extension (n : ℕ) :
    (extension n).length = if 15 ≤ n then (n - 15) / 255 + 1 else 0 := by
  unfold extension
  split
  · exact length_lengthBytes _
  · rfl

theorem putAll_of_le {bytes : List Byte} (h : out.length + bytes.length ≤ cap) :
    putAll cap out bytes = .ok (out ++ bytes) := if_pos h

theorem put_of_lt (hcap : out.length < cap) (hb : n < 256) :
    put cap out n = .ok (out ++ [ofNat n]) := by
  rw [put, intCast_of_lt hb]
  exact putAll_of_le hcap

theorem putLength_eq (h : out.length + (lengthBytes rem).length ≤ cap) :
    putLength cap out rem = .ok (out ++ lengthBytes rem) := by
  induction rem using Nat.strongRecOn generalizing out with
  | ind rem ih =>
    rw [lengthBytes] at h ⊢
    rw [putLength]
    split
    · next hbig =>
      rw [if_pos hbig, length_cons] at h
      rw [put_of_lt (by omega) (by omega)]
      show putLength cap (out ++ [255]) (rem - 255) = _
      rw [ih (rem - 255) (by omega) (by rw [length_append, length_singleton]; omega),
        append_assoc, singleton_append]
    · next hsmall =>
      rw [if_neg hsmall, length_singleton] at h
      exact put_of_lt (by omega) (by omega)

theorem putExtension_eq (h : out.length + (extension n).length ≤ cap) :
    putExtension cap out n = .ok (out ++ extension n) := by
  unfold extension at h ⊢
  unfold putExtension
  split
  · next hn =>
    rw [if_pos hn] at h
    exact putLength_eq h
  · rw [append_nil]

theorem readLength_lengthBytes (rem n : ℕ) (rest : List Byte) :
    readLength (lengthBytes rem ++ rest) n = (n + rem, rest) := by
  induction rem using Nat.strongRecOn generalizing n with
  | ind rem ih =>
    rw [lengthBytes]
    split
    · next hbig =>
      rw [cons_append, readLength, if_neg (by simp), ih (rem - 255) (by omega)]
      refine Prod.ext ?_ rfl
      show n + 255 + (rem - 255) = n + rem
      omega
    · next hsmall =>
      have hvalue : (ofNat rem).toNat = rem := by
        rw [toNat_ofNat']
        omega
      rw [singleton_append, readLength, if_pos, hvalue]
      intro heq
      rw [heq] at hvalue
      exact hsmall (le_of_eq hvalue)

/-- A length is read back from its half of the token and its extension. -/
theorem readExtended_extension (n base : ℕ) (rest : List Byte) :
    readExtended (min 15 n) base (extension n ++ rest) = (n + base, rest) := by
  unfold readExtended extension
  by_cases h : 15 ≤ n
  · rw [min_eq_left h, if_pos rfl, if_pos h, readLength_lengthBytes]
    refine Prod.ext ?_ rfl
    show 15 + base + (n - 15) = n + base
    omega
  · rw [min_eq_right (by omega), if_neg (by omega), if_neg h, nil_append]

def token (litLen extra : ℕ) : Byte := ofNat (min 15 litLen <<< 4 ||| min 15 extra)

theorem halves : ∀ a < 16, ∀ b < 16,
    a <<< 4 ||| b < 256 ∧ (a <<< 4 ||| b) >>> 4 = a ∧ (a <<< 4 ||| b) &&& 0x0F = b := by
  decide

theorem token_halves (litLen extra : ℕ) :
    min 15 litLen <<< 4 ||| min 15 extra < 256 ∧
      (token litLen extra).toNat >>> 4 = min 15 litLen ∧
      (token litLen extra).toNat &&& 0x0F = min 15 extra := by
  obtain ⟨hlt, hlit, hextra⟩ := halves (min 15 litLen) (by omega) (min 15 extra) (by omega)
  have htoken : (token litLen extra).toNat = min 15 litLen <<< 4 ||| min 15 extra := by
    rw [token, toNat_ofNat', mod_eq_of_lt hlt]
  rw [htoken]
  exact ⟨hlt, hlit, hextra⟩

def sequence (lits : List Byte) (extra offset : ℕ) : List Byte :=
  token lits.length extra :: (extension lits.length ++ (lits ++
    (ofNat (offset % 256) :: ofNat (offset / 256) :: extension extra)))

def lastSequence (lits : List Byte) : List Byte :=
  token lits.length 0 :: (extension lits.length ++ lits)

theorem length_sequence (lits : List Byte) (extra offset : ℕ) :
    (sequence lits extra offset).length =
      3 + (extension lits.length).length + lits.length + (extension extra).length := by
  simp only [sequence, length_cons, length_append]
  omega

theorem length_lastSequence (lits : List Byte) :
    (lastSequence lits).length = 1 + (extension lits.length).length + lits.length := by
  simp only [lastSequence, length_cons, length_append]
  omega

theorem decompressLoop_sequence (hcap : out.length + lits.length + extra + MIN_MATCH ≤ cap)
    (hpos : 0 < offset) (hlt : offset < 2 ^ 16) (hoffset : offset ≤ out.length + lits.length) :
    decompressLoop cap (fuel + 1) (sequence lits extra offset ++ rest) out =
      copyMatch cap offset (extra + MIN_MATCH) (out ++ lits) >>= decompressLoop cap fuel rest := by
  obtain ⟨-, hlit, hextra⟩ := token_halves lits.length extra
  have hlo : (ofNat (offset % 256)).toNat + 256 * (ofNat (offset / 256)).toNat =
      offset := by
    rw [toNat_ofNat', toNat_ofNat']
    omega
  rw [sequence, cons_append, decompressLoop, hlit, hextra]
  simp only [append_assoc, readExtended_extension, add_zero, cons_append,
    take_left', drop_left', length_append, length_cons]
  rw [if_neg (by omega), if_neg (by omega), hlo, if_neg (by omega), if_neg (by omega)]

theorem decompressLoop_lastSequence (hcap : out.length + lits.length ≤ cap) :
    decompressLoop cap (fuel + 1) (lastSequence lits) out = .ok (.ok (out ++ lits)) := by
  obtain ⟨-, hlit, -⟩ := token_halves lits.length 0
  rw [lastSequence, decompressLoop, hlit]
  simp only [readExtended_extension, add_zero, take_length, drop_length]
  rw [if_neg (by omega), if_neg (by omega)]

end

section

variable {src : List Byte} {cap : ℕ}
variable {pos offset n : ℕ} {c : Cursor}

theorem slice_of_le {len : ℕ} (h : pos + len ≤ src.length) :
    slice src pos len = .ok ((src.drop pos).take len) := if_pos h

variable {anchor litLen : ℕ}

theorem length_lits (h : anchor + litLen ≤ src.length) :
    ((src.drop anchor).take litLen).length = litLen := by
  rw [length_take, length_drop]
  omega

variable {out : List Byte}

theorem emitSequence_eq {extra : ℕ} (hsrc : anchor + litLen ≤ src.length)
    (hcap : out.length + (sequence ((src.drop anchor).take litLen) extra offset).length ≤ cap) :
    emitSequence src anchor litLen extra offset cap out =
      .ok (out ++ sequence ((src.drop anchor).take litLen) extra offset) := by
  have hlits := length_lits hsrc
  rw [length_sequence, hlits] at hcap
  unfold emitSequence
  rw [put_of_lt (by omega) (token_halves litLen extra).1]
  simp only [ok_bind]
  rw [putExtension_eq (by rw [length_append, length_singleton]; omega)]
  simp only [ok_bind]
  rw [slice_of_le hsrc]
  simp only [ok_bind]
  rw [putAll_of_le (by simp only [length_append, length_singleton, hlits]; omega)]
  simp only [ok_bind]
  rw [putAll_of_le (by
    simp only [length_append, length_cons, length_nil, hlits]
    omega)]
  simp only [ok_bind]
  rw [putExtension_eq (by
    simp only [length_append, length_cons, length_nil, hlits]
    omega)]
  rw [sequence, hlits]
  simp only [append_assoc, cons_append, nil_append, token]

theorem emitLastLiterals_eq (hsrc : anchor + litLen ≤ src.length)
    (hcap : out.length + (lastSequence ((src.drop anchor).take litLen)).length ≤ cap) :
    emitLastLiterals src anchor litLen cap out =
      .ok (out ++ lastSequence ((src.drop anchor).take litLen)) := by
  have hlits := length_lits hsrc
  have htoken := (token_halves litLen 0).1
  rw [length_lastSequence, hlits] at hcap
  rw [min_zero, or_zero] at htoken
  unfold emitLastLiterals
  rw [put_of_lt (by omega) htoken]
  simp only [ok_bind]
  rw [putExtension_eq (by rw [length_append, length_singleton]; omega)]
  simp only [ok_bind]
  rw [slice_of_le hsrc]
  simp only [ok_bind]
  rw [putAll_of_le (by simp only [length_append, length_singleton, hlits]; omega)]
  rw [lastSequence, hlits, token, min_zero, or_zero]
  simp only [append_assoc, cons_append, nil_append]

/-- A match whose bytes have been compared extends what is written. -/
theorem copyMatch_eq (hpos : 0 < offset) (hle : offset ≤ pos) (hend : pos + n ≤ src.length)
    (hcap : pos + n ≤ cap) (hsame : ∀ k < n, src[pos - offset + k]? = src[pos + k]?) :
    copyMatch cap offset n (src.take pos) = .ok (src.take (pos + n)) := by
  induction n generalizing pos with
  | zero => rfl
  | succ n ih =>
    have hlen : (src.take pos).length = pos := by
      rw [length_take]
      omega
    have hbyte : src[pos]? = some (src[pos]) := getElem?_eq_getElem (by omega)
    have hread : (src.take pos)[(src.take pos).length - offset]? = some src[pos] := by
      have h0 := hsame 0 (by omega)
      rw [add_zero, add_zero] at h0
      rw [hlen, getElem?_take_of_lt (by omega), h0, hbyte]
    have hwrite : putAll cap (src.take pos) [src[pos]] = .ok (src.take (pos + 1)) := by
      rw [putAll_of_le (by rw [hlen, length_singleton]; omega), take_add_one, hbyte]
      rfl
    rw [copyMatch, index_eq_ok.mpr hread]
    simp only [ok_bind]
    rw [hwrite]
    simp only [ok_bind]
    rw [ih (by omega) (by omega) (by omega) fun k hk => ?_]
    · rw [add_assoc, add_comm 1 n]
    · have := hsame (k + 1) (by omega)
      rw [show pos - offset + (k + 1) = pos + 1 - offset + k by omega,
        show pos + (k + 1) = pos + 1 + k by omega] at this
      exact this

theorem foldr_inj {a b : List Byte} (hlen : a.length = b.length)
    (h : a.foldr (fun x n => x.toNat + 256 * n) 0 = b.foldr (fun x n => x.toNat + 256 * n) 0) :
    a = b := by
  induction a generalizing b with
  | nil =>
    cases b with
    | nil => rfl
    | cons y b => simp at hlen
  | cons x a ih =>
    cases b with
    | nil => simp at hlen
    | cons y b =>
      simp only [foldr_cons] at h
      have hx := x.toNat_lt
      have hy := y.toNat_lt
      have hxy : x = y := UInt8.toNat_inj.mp (by omega)
      rw [hxy, ih (by simpa using hlen) (by omega)]

theorem readU32_same {p q v : ℕ} (hp : readU32 src p = .ok v) (hq : readU32 src q = .ok v) :
    p + 4 ≤ src.length ∧ ∀ k < 4, src[p + k]? = src[q + k]? := by
  unfold readU32 slice at hp hq
  split at hp
  · next hple =>
    split at hq
    · next hqle =>
      refine ⟨hple, fun k hk => ?_⟩
      have hsame := foldr_inj (by simp only [length_take, length_drop]; omega)
        ((Except.ok.inj hp).trans (Except.ok.inj hq).symm)
      have hk' := congrArg (fun bytes : List Byte => bytes[k]?) hsame
      simpa [getElem?_take_of_lt hk] using hk'
    · cases hq
  · cases hp

/-- The loop finds the end of a match before the last byte. -/
theorem extendMatch_spec (fuel : ℕ) {refPos ip : ℕ} (href : refPos < ip)
    (hlen : LAST_LITERALS ≤ src.length) (hend : ip + n < src.length)
    (hsame : ∀ k < n, src[refPos + k]? = src[ip + k]?) :
    ∃ n', extendMatch src refPos ip fuel n = .ok n' ∧ n ≤ n' ∧ ip + n' < src.length ∧
      ∀ k < n', src[refPos + k]? = src[ip + k]? := by
  induction fuel generalizing n with
  | zero => exact ⟨n, rfl, Nat.le_refl _, hend, hsame⟩
  | succ fuel ih =>
    rw [extendMatch, sub_of_le hlen]
    simp only [ok_bind]
    split
    · next hmore =>
      unfold MIN_MATCH LAST_LITERALS at hmore
      unfold LAST_LITERALS at hlen
      have ha : src[refPos + n]? = some (src[refPos + n]) := getElem?_eq_getElem (by omega)
      have hb : src[ip + n]? = some (src[ip + n]) := getElem?_eq_getElem (by omega)
      rw [index_eq_ok.mpr ha]
      simp only [ok_bind]
      rw [index_eq_ok.mpr hb]
      simp only [ok_bind]
      split
      · next heq =>
        have hsame' (k : ℕ) (hk : k < n + 1) : src[refPos + k]? = src[ip + k]? := by
          rcases Nat.lt_succ_iff_lt_or_eq.mp hk with hk | rfl
          · exact hsame k hk
          · rw [ha, hb, heq]
        obtain ⟨n', hrun, hle, hrest⟩ := ih (by omega) hsame'
        exact ⟨n', hrun, by omega, hrest⟩
      · exact ⟨n, rfl, Nat.le_refl _, hend, hsame⟩
    · exact ⟨n, rfl, Nat.le_refl _, hend, hsame⟩

theorem wrappingSub_of_le {a b : ℕ} (hle : b ≤ a) (hlt : a < 2 ^ 64) : wrappingSub a b = a - b := by
  unfold wrappingSub
  omega

theorem hash4_lt (v : ℕ) : hash4 v < HASH_SIZE := by
  unfold hash4 HASH_SIZE HASH_SHIFT HASH_BITS
  rw [shiftRight_eq_div_pow]
  omega

theorem readU32_of_le (h : pos + 4 ≤ src.length) : ∃ v, readU32 src pos = .ok v := by
  refine ⟨((src.drop pos).take 4).foldr (fun b n => b.toNat + 256 * n) 0, ?_⟩
  rw [readU32, slice_of_le h]
  rfl

theorem matchFound_spec (refPos v offset : ℕ) (hlen : MIN_MATCH ≤ src.length) :
    ∃ found, matchFound src refPos v offset = .ok found ∧
      (found = true → 0 < offset ∧ offset ≤ 0xFFFF ∧ readU32 src refPos = .ok v) := by
  unfold matchFound
  split
  · next hoffset =>
    rw [sub_of_le hlen]
    simp only [ok_bind]
    split
    · next hlast =>
      unfold MIN_MATCH at hlen hlast
      obtain ⟨v', hread⟩ := readU32_of_le (show refPos + 4 ≤ src.length by omega)
      rw [hread]
      refine ⟨decide (v' = v), rfl, fun h => ⟨hoffset.1, hoffset.2, ?_⟩⟩
      rw [of_decide_eq_true h]
    · exact ⟨false, rfl, nofun⟩
  · exact ⟨false, rfl, nofun⟩

/-- What is written decompresses to the source up to the anchor, and is not much longer. -/
structure Compressed (src : List Byte) (c : Cursor) : Prop where
  anchor_le : c.anchor ≤ c.ip
  ip_lt : c.ip < src.length
  table_le : ∀ h, c.table h ≤ c.ip
  length_le : 255 * c.out.length ≤ 256 * c.anchor
  decompressed : ∃ rounds ≤ c.out.length, ∀ cap fuel rest, src.length ≤ cap →
    decompressLoop cap (rounds + fuel) (c.out ++ rest) [] =
      decompressLoop cap fuel rest (src.take c.anchor)

/-- A sequence is shorter than what it stands for, but for one byte in 255. -/
theorem length_sequence_le (lits : List Byte) (extra offset : ℕ) :
    255 * (sequence lits extra offset).length ≤ 256 * (lits.length + extra + MIN_MATCH) := by
  unfold MIN_MATCH
  rw [length_sequence, length_extension, length_extension]
  split <;> split <;> omega

theorem Compressed.emit (h : Compressed src c) (table : ℕ → ℕ) (htable : ∀ i, table i ≤ c.ip)
    (hpos : 0 < offset) (hlt : offset < 2 ^ 16) (hle : offset ≤ c.ip) (hn : MIN_MATCH ≤ n)
    (hend : c.ip + n < src.length) (hsame : ∀ k < n, src[c.ip - offset + k]? = src[c.ip + k]?) :
    Compressed src ⟨c.ip + n, c.ip + n, table,
      c.out ++ sequence ((src.drop c.anchor).take (c.ip - c.anchor)) (n - MIN_MATCH) offset⟩ := by
  have hanchor := h.anchor_le
  have hip := h.ip_lt
  have hlits := @length_lits src c.anchor (c.ip - c.anchor) (by omega)
  have htake : (src.take c.anchor).length = c.anchor := by
    rw [length_take]
    omega
  have hjoin : src.take c.anchor ++ (src.drop c.anchor).take (c.ip - c.anchor) = src.take c.ip := by
    rw [← take_add, Nat.add_sub_cancel' hanchor]
  have hsize := length_sequence_le ((src.drop c.anchor).take (c.ip - c.anchor)) (n - MIN_MATCH)
    offset
  refine ⟨Nat.le_refl _, hend, fun i => Nat.le_trans (htable i) (Nat.le_add_right _ _), ?_, ?_⟩
  · rw [hlits] at hsize
    have := h.length_le
    show 255 * (c.out ++ _).length ≤ 256 * (c.ip + n)
    rw [length_append]
    omega
  · obtain ⟨rounds, hrounds, hdecompressed⟩ := h.decompressed
    refine ⟨rounds + 1, ?_, fun cap fuel rest hcap => ?_⟩
    · show rounds + 1 ≤ (c.out ++ _).length
      rw [length_append, length_sequence]
      omega
    · show decompressLoop cap (rounds + 1 + fuel) (c.out ++ _ ++ rest) [] =
        decompressLoop cap fuel rest (src.take (c.ip + n))
      rw [append_assoc, add_assoc, add_comm 1 fuel, hdecompressed cap _ _ hcap,
        decompressLoop_sequence (by rw [htake, hlits]; omega) hpos hlt (by rw [htake, hlits]; omega),
        hjoin, Nat.sub_add_cancel hn, copyMatch_eq hpos hle (by omega) (by omega) hsame]
      rfl

/-- One round keeps what is written decompressible, and moves the cursor. -/
theorem step_compressed (hsrc : src.length ≤ PAGE_SIZE) (hcap : MAX_COMPRESSED_SIZE ≤ cap)
    (hip : c.ip < src.length - LAST_LITERALS) (h : Compressed src c) :
    ∃ c', step src cap c = .ok c' ∧ Compressed src c' ∧ c.ip < c'.ip := by
  unfold PAGE_SIZE at hsrc
  unfold LAST_LITERALS at hip
  have hanchor := h.anchor_le
  obtain ⟨v, hread⟩ := readU32_of_le (show c.ip + 4 ≤ src.length by omega)
  have href := h.table_le (hash4 v)
  have hoffset := wrappingSub_of_le href (by omega)
  have htable (i : ℕ) : update c.table (hash4 v) c.ip i ≤ c.ip := by
    by_cases hi : i = hash4 v
    · rw [hi, update_self]
    · rw [update_of_ne hi]
      exact h.table_le i
  obtain ⟨found, hfound, hspec⟩ := matchFound_spec (c.table (hash4 v)) v
    (c.ip - c.table (hash4 v)) (show MIN_MATCH ≤ src.length by unfold MIN_MATCH; omega)
  unfold step
  rw [hread]
  simp only [ok_bind]
  rw [(assert_eq_ok (u := ())).mpr (hash4_lt v), intCast_of_lt (show c.ip < 2 ^ 32 by omega)]
  simp only [ok_bind, hoffset]
  rw [hfound]
  simp only [ok_bind]
  cases found with
  | false =>
    refine ⟨{ c with ip := c.ip + 1, table := update c.table (hash4 v) c.ip }, rfl, ?_,
      Nat.lt_succ_self _⟩
    exact ⟨Nat.le_succ_of_le h.anchor_le, by show c.ip + 1 < src.length; omega,
      fun i => Nat.le_succ_of_le (htable i), h.length_le, h.decompressed⟩
  | true =>
    obtain ⟨hpos, hfar, hread'⟩ := hspec rfl
    obtain ⟨-, hfour⟩ := readU32_same hread' hread
    obtain ⟨n, hextend, hn, hend, hsame⟩ := extendMatch_spec src.length
      (show c.table (hash4 v) < c.ip by omega)
      (show LAST_LITERALS ≤ src.length by unfold LAST_LITERALS; omega)
      (show c.ip + MIN_MATCH < src.length by unfold MIN_MATCH; omega) hfour
    have hsame' (k : ℕ) (hk : k < n) :
        src[c.ip - (c.ip - c.table (hash4 v)) + k]? = src[c.ip + k]? := by
      rw [Nat.sub_sub_self href]
      exact hsame k hk
    have hnext := h.emit (update c.table (hash4 v) c.ip) htable hpos
      (by omega) (Nat.sub_le _ _) hn hend hsame'
    have hroom := hnext.length_le
    simp only [length_append] at hroom
    simp only [if_true]
    rw [hextend]
    simp only [ok_bind]
    rw [intCast_of_lt (show c.ip - c.table (hash4 v) < 2 ^ 16 by omega)]
    simp only [ok_bind]
    rw [emitSequence_eq (by omega) (by unfold MAX_COMPRESSED_SIZE PAGE_SIZE at hcap; omega)]
    refine ⟨_, rfl, hnext, ?_⟩
    unfold MIN_MATCH at hn
    show c.ip < c.ip + n
    omega

theorem compressLoop_compressed {fuel : ℕ} (hsrc : src.length ≤ PAGE_SIZE)
    (hcap : MAX_COMPRESSED_SIZE ≤ cap) (hfuel : src.length - LAST_LITERALS ≤ c.ip + fuel)
    (h : Compressed src c) :
    ∃ c', compressLoop src cap (src.length - LAST_LITERALS) fuel c = .ok c' ∧ Compressed src c' ∧
      src.length - LAST_LITERALS ≤ c'.ip := by
  induction fuel generalizing c with
  | zero => exact ⟨c, rfl, h, hfuel⟩
  | succ fuel ih =>
    rw [compressLoop]
    split
    · next hip =>
      obtain ⟨c', hstep, h', hmoved⟩ := step_compressed hsrc hcap hip h
      rw [hstep]
      exact ih (by omega) h'
    · next hip => exact ⟨c, rfl, h, Nat.le_of_not_lt hip⟩

end

/-- A page is compressed into a buffer of the maximal size, and decompressed to what it was. -/
theorem decompress_compress (src : List Byte) (cap room : ℕ) (hsrc : src.length ≤ PAGE_SIZE)
    (hcap : MAX_COMPRESSED_SIZE ≤ cap) (hroom : src.length ≤ room) :
    ∃ block, compress src cap = .ok (.ok block) ∧ block.length ≤ MAX_COMPRESSED_SIZE ∧
      decompress block room = .ok (.ok src) := by
  unfold compress
  rw [if_neg (not_lt.mpr hcap)]
  by_cases hempty : src.length = 0
  · refine ⟨[], by rw [if_pos hempty]; rfl, Nat.zero_le _, ?_⟩
    rw [eq_nil_of_length_eq_zero hempty]
    rfl
  · rw [if_neg hempty]
    have hstart : Compressed src ⟨0, 0, fun _ => 0, []⟩ :=
      ⟨Nat.le_refl _, pos_of_ne_zero hempty, fun _ => Nat.le_refl _, Nat.le_refl _,
        0, Nat.le_refl _, fun cap fuel rest _ => by rw [zero_add]; rfl⟩
    obtain ⟨c, hloop, h, -⟩ := compressLoop_compressed hsrc hcap
      (show src.length - LAST_LITERALS ≤ 0 + (src.length - LAST_LITERALS) by omega) hstart
    have hanchor := h.anchor_le
    have hip := h.ip_lt
    have hlits := @length_lits src c.anchor (src.length - c.anchor) (by omega)
    have htake : (src.take c.anchor).length = c.anchor := by
      rw [length_take]
      omega
    have hsize : (c.out ++ lastSequence ((src.drop c.anchor).take (src.length - c.anchor))).length ≤
        MAX_COMPRESSED_SIZE := by
      have hlength := h.length_le
      unfold MAX_COMPRESSED_SIZE PAGE_SIZE at *
      rw [length_append, length_lastSequence, length_extension, hlits]
      split <;> omega
    refine ⟨_, ?_, hsize, ?_⟩
    · simp only [hloop, ok_bind]
      rw [emitLastLiterals_eq (by omega) (by rw [← length_append]; omega)]
      rfl
    · obtain ⟨rounds, hrounds, hdecompressed⟩ := h.decompressed
      obtain ⟨fuel, hfuel⟩ : ∃ fuel, (c.out ++ lastSequence
          ((src.drop c.anchor).take (src.length - c.anchor))).length = rounds + (fuel + 1) := by
        refine ⟨(c.out ++ lastSequence
          ((src.drop c.anchor).take (src.length - c.anchor))).length - rounds - 1, ?_⟩
        rw [length_append, length_lastSequence]
        omega
      rw [decompress, hfuel, hdecompressed room _ _ hroom,
        decompressLoop_lastSequence (by rw [htake, hlits]; omega), ← take_add,
        Nat.add_sub_cancel' (by omega), take_length]

/-- Four bytes that are repeated three times are one match of twelve bytes, at the distance 4. -/
theorem decompress_compress_repeated :
    let page : List Byte := [1, 2, 3, 4, 1, 2, 3, 4, 1, 2, 3, 4, 1, 2, 3, 4, 5, 6, 7, 8]
    let block : List Byte := [72, 1, 2, 3, 4, 4, 0, 64, 5, 6, 7, 8]
    compress page MAX_COMPRESSED_SIZE = .ok (.ok block) ∧ decompress block 20 = .ok (.ok page) := by
  intro page block
  have hblock : compress page MAX_COMPRESSED_SIZE = .ok (.ok block) := by decide +kernel
  obtain ⟨block', hcompress, -, hdecompress⟩ :=
    decompress_compress page MAX_COMPRESSED_SIZE 20 (by decide) (le_refl _) (by decide)
  obtain rfl : block = block' := Except.ok.inj (Except.ok.inj (hblock.symm.trans hcompress))
  exact ⟨hblock, hdecompress⟩

end Innigkeit.Memory.Compress
