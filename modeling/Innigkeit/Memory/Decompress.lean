import Innigkeit.Memory.Compress

/-!
The decoder on its buffers. Here `decompress` reads the block by position and writes the
output buffer byte by byte; a byte of the output that is not written yet cannot be read.
An access outside a buffer traps, as do a sum that leaves 64 bits and a loop that runs out
of its fuel. The decoder comes to what the list model of it says, whatever the block holds.
-/

namespace Innigkeit.Memory.Compress

open Zig List Nat

/-- An output buffer; a byte that is not written is `none`. -/
abbrev Buffer := List (Option Byte)

def blit (dst : Buffer) (pos : ℕ) (bytes : List Byte) : Checked Buffer :=
  if pos + bytes.length ≤ dst.length then
    .ok (dst.take pos ++ bytes.map some ++ dst.drop (pos + bytes.length))
  else .error .bounds

def extendLoop (src : List Byte) : ℕ → ℕ → ℕ → Checked (ℕ × ℕ)
  | 0, _, _ => .error .panic
  | fuel + 1, ip, len => do
    if ip < src.length then
      let extra ← index src ip
      let len ← add 64 len extra.toNat
      if extra ≠ 255 then return (len, ip + 1) else extendLoop src fuel (ip + 1) len
    else return (len, ip)

def extend (src : List Byte) (nibble base ip : ℕ) : Checked (ℕ × ℕ) :=
  if nibble = 15 then extendLoop src (src.length + 1) ip (nibble + base) else .ok (nibble + base, ip)

def copyLoop (matchStart op : ℕ) : ℕ → ℕ → Buffer → Checked Buffer
  | 0, _, dst => .ok dst
  | n + 1, i, dst => do
    let b ← unwrap (← index dst (matchStart + i))
    copyLoop matchStart op n (i + 1) (← blit dst (op + i) [b])

def decodeLoop (src : List Byte) : ℕ → ℕ → ℕ → Buffer → Checked (Except Error (ℕ × Buffer))
  | 0, _, _, _ => .error .panic
  | fuel + 1, ip, op, dst => do
    if src.length ≤ ip then return .ok (op, dst)
    let token ← index src ip
    let (litLen, ip) ← extend src (token.toNat >>> 4) 0 (ip + 1)
    if dst.length < (← add 64 op litLen) then return .error .bufferTooSmall
    if src.length < (← add 64 ip litLen) then return .error .corruptInput
    let dst ← blit dst op (← slice src ip litLen)
    let ip := ip + litLen
    let op := op + litLen
    if src.length ≤ ip then return .ok (op, dst)
    if src.length < ip + 2 then return .error .corruptInput
    let offset := (← index src ip).toNat + 256 * (← index src (ip + 1)).toNat
    if offset = 0 ∨ op < offset then return .error .corruptInput
    let (matchLen, ip) ← extend src (token.toNat &&& 0x0F) MIN_MATCH (ip + 2)
    if dst.length < (← add 64 op matchLen) then return .error .bufferTooSmall
    let dst ← copyLoop (op - offset) op matchLen 0 dst
    decodeLoop src fuel ip (op + matchLen) dst

def decode (src : List Byte) (dst : Buffer) : Checked (Except Error (ℕ × Buffer)) :=
  decodeLoop src (src.length + 1) 0 0 dst

def filled (cap : ℕ) (out : List Byte) : Buffer := out.map some ++ replicate (cap - out.length) none

section

variable {cap offset op matchStart n i : ℕ} {out bytes : List Byte}

theorem length_filled (h : out.length ≤ cap) : (filled cap out).length = cap := by
  rw [filled, length_append, length_map, length_replicate]
  omega

theorem blit_filled (h : out.length + bytes.length ≤ cap) :
    blit (filled cap out) out.length bytes = .ok (filled cap (out ++ bytes)) := by
  have htake : (filled cap out).take out.length = out.map some := by
    rw [filled, take_left' (length_map _)]
  have hdrop : (filled cap out).drop (out.length + bytes.length) =
      replicate (cap - (out ++ bytes).length) none := by
    rw [filled, ← drop_drop, drop_left' (length_map _), drop_replicate, length_append, Nat.sub_sub]
  rw [blit, if_pos (by rw [length_filled (by omega)]; exact h), htake, hdrop, filled, map_append]

/-- A match whose source is written is copied, also where it overlaps what it writes. -/
theorem copyLoop_filled (hpos : 0 < offset) (hle : offset ≤ out.length) (hcap : out.length + n ≤ cap)
    (hop : op + i = out.length) (hstart : matchStart + i = out.length - offset) :
    ∃ out', copyMatch cap offset n out = .ok out' ∧ out'.length = out.length + n ∧
      copyLoop matchStart op n i (filled cap out) = .ok (filled cap out') := by
  induction n generalizing i out with
  | zero => exact ⟨out, rfl, rfl, rfl⟩
  | succ n ih =>
    obtain ⟨b, hb⟩ : ∃ b, out[out.length - offset]? = some b :=
      ⟨_, getElem?_eq_getElem (by omega)⟩
    have hread : (filled cap out)[out.length - offset]? = some (some b) := by
      rw [filled, getElem?_append_left (by rw [length_map]; omega), getElem?_map, hb]
      rfl
    have hlen : (out ++ [b]).length = out.length + 1 := by simp
    have hblit : blit (filled cap out) out.length [b] = .ok (filled cap (out ++ [b])) :=
      blit_filled (by rw [length_singleton]; omega)
    obtain ⟨out', hcopy, hlength, hloop⟩ := @ih (i + 1) (out ++ [b]) (by omega)
      (by omega) (by omega) (by omega)
    refine ⟨out', ?_, by omega, ?_⟩
    · rw [copyMatch, index_of hb, ok_bind, putAll_of_le (by rw [length_singleton]; omega), ok_bind]
      exact hcopy
    · rw [copyLoop, hstart, index_of hread, ok_bind, unwrap, ok_bind, hop, hblit, ok_bind]
      exact hloop

end

/-- The computations agree, unless the first one traps on an overflow that the sizes allow. -/
def Agrees {α : Type} (big : Prop) (x y : Checked α) : Prop := x = y ∨ x = .error .overflow ∧ big

section

variable {α β : Type} {big : Prop} {x : Checked α} {y : Checked β} {f : α → Checked β}

theorem agrees_bind {a : α} (hx : Agrees big x (.ok a)) (hf : Agrees big (f a) y) :
    Agrees big (x >>= f) y := by
  obtain rfl | ⟨rfl, hbig⟩ := hx
  · exact hf
  · exact .inr ⟨rfl, hbig⟩

theorem agrees_add {a b : ℕ} (h : 2 ^ 64 ≤ a + b → big) : Agrees big (add 64 a b) (.ok (a + b)) := by
  by_cases hlt : a + b < 2 ^ 64
  · exact .inl (add_of_lt hlt)
  · exact .inr ⟨if_neg hlt, h (Nat.le_of_not_lt hlt)⟩

end

section

variable {src out : List Byte} {cap fuel ip : ℕ}

/-- A sum of the decoder can leave 64 bits. -/
def Big (src : List Byte) (cap : ℕ) : Prop := 2 ^ 64 ≤ 256 * src.length + cap + 19

/-- The loop reads the length that the list model reads, and stays inside the block. -/
theorem extendLoop_agrees {big : Prop} {len : ℕ} (hip : ip ≤ src.length)
    (hfuel : src.length - ip < fuel) (hbig : 2 ^ 64 ≤ len + 255 * (src.length - ip) → big) :
    ∃ len' ip', readLength (src.drop ip) len = (len', src.drop ip') ∧ ip ≤ ip' ∧
      ip' ≤ src.length ∧ len' ≤ len + 255 * (ip' - ip) ∧
      Agrees big (extendLoop src fuel ip len) (.ok (len', ip')) := by
  induction fuel generalizing ip len with
  | zero => omega
  | succ fuel ih =>
    obtain rfl | hlt := eq_or_lt_of_le hip
    · refine ⟨len, src.length, by rw [drop_length, readLength], le_rfl, le_rfl, by omega, .inl ?_⟩
      rw [extendLoop, if_neg (lt_irrefl _)]
      rfl
    · have hbyte := src[ip].toNat_lt
      have hread : index src ip = .ok src[ip] := index_of (getElem?_eq_getElem hlt)
      have hadd : Agrees big (add 64 len src[ip].toNat) (.ok (len + src[ip].toNat)) :=
        agrees_add fun h => hbig (by omega)
      rw [drop_eq_getElem_cons hlt, readLength, extendLoop, if_pos hlt, hread, ok_bind]
      by_cases hlast : src[ip] ≠ 255
      · rw [if_pos hlast]
        exact ⟨_, ip + 1, rfl, by omega, hlt, by omega, agrees_bind hadd (.inl (if_pos hlast))⟩
      · rw [if_neg hlast]
        obtain ⟨len', ip', hlength, hge, hle, hmax, hagrees⟩ :=
          @ih (ip + 1) (len + src[ip].toNat) hlt (by omega) fun h => hbig (by omega)
        refine ⟨len', ip', hlength, by omega, hle, by omega, agrees_bind hadd ?_⟩
        rw [if_neg hlast]
        exact hagrees

theorem extend_agrees (nibble base : ℕ) {big : Prop} (hip : ip ≤ src.length)
    (hbig : 2 ^ 64 ≤ nibble + base + 255 * src.length → big) :
    ∃ len ip', readExtended nibble base (src.drop ip) = (len, src.drop ip') ∧ ip ≤ ip' ∧
      ip' ≤ src.length ∧ len ≤ nibble + base + 255 * src.length ∧
      Agrees big (extend src nibble base ip) (.ok (len, ip')) := by
  unfold readExtended extend
  split
  · obtain ⟨len, ip', hlength, hge, hle, hmax, hagrees⟩ :=
      @extendLoop_agrees src (src.length + 1) ip big (nibble + base) hip (by omega)
        fun h => hbig (by omega)
    exact ⟨len, ip', hlength, hge, hle, by omega, hagrees⟩
  · exact ⟨_, ip, rfl, le_rfl, hip, by omega, .inl rfl⟩

def report (cap : ℕ) (r : Except Error (List Byte)) : Except Error (ℕ × Buffer) :=
  r.map fun out => (out.length, filled cap out)

/-- The list model returns bytes that fit into the buffer, and the decoder reports them. -/
def Decodes (big : Prop) (cap : ℕ) (x : Checked (Except Error (ℕ × Buffer)))
    (y : Checked (Except Error (List Byte))) : Prop :=
  ∃ r, y = .ok r ∧ (∀ out, r = .ok out → out.length ≤ cap) ∧ Agrees big x (.ok (report cap r))

section

variable {big : Prop} {y : Checked (Except Error (List Byte))}

theorem decodes_bind {α : Type} {x : Checked α} {f : α → Checked (Except Error (ℕ × Buffer))}
    {a : α} (hx : Agrees big x (.ok a)) (hf : Decodes big cap (f a) y) :
    Decodes big cap (x >>= f) y := by
  obtain ⟨r, hr, hfits, hagrees⟩ := hf
  exact ⟨r, hr, hfits, agrees_bind hx hagrees⟩

theorem decodes_error (e : Error) : Decodes big cap (.ok (.error e)) (.ok (.error e)) :=
  ⟨.error e, rfl, fun _ h => (by cases h), .inl rfl⟩

theorem decodes_ok (hout : out.length ≤ cap) :
    Decodes big cap (.ok (.ok (out.length, filled cap out))) (.ok (.ok out)) :=
  ⟨.ok out, rfl, fun _ h => (by cases h; exact hout), .inl rfl⟩

end

theorem decodeLoop_decodes (hip : ip ≤ src.length) (hfuel : src.length - ip ≤ fuel)
    (hout : out.length ≤ cap) :
    Decodes (Big src cap) cap (decodeLoop src (fuel + 1) ip out.length (filled cap out))
      (decompressLoop cap fuel (src.drop ip) out) := by
  induction fuel generalizing ip out with
  | zero =>
    rw [decodeLoop, if_pos (by omega), decompressLoop]
    exact decodes_ok hout
  | succ fuel ih =>
    obtain rfl | hlt := eq_or_lt_of_le hip
    · rw [decodeLoop, if_pos le_rfl, drop_length, decompressLoop]
      exact decodes_ok hout
    have htoken := src[ip].toNat_lt
    have hnibble : src[ip].toNat >>> 4 ≤ 15 := by
      rw [shiftRight_eq_div_pow]
      omega
    have hnibble' : src[ip].toNat &&& 0x0F ≤ 15 := and_le_right
    obtain ⟨litLen, ip₁, hlit, hge, hip₁, hlitLen, hextend⟩ :=
      extend_agrees (src[ip].toNat >>> 4) 0 (show ip + 1 ≤ src.length from hlt)
        fun h => show Big src cap by unfold Big; omega
    rw [decodeLoop, if_neg (by omega), index_of (getElem?_eq_getElem hlt), ok_bind,
      drop_eq_getElem_cons hlt, decompressLoop, hlit]
    refine decodes_bind hextend (decodes_bind (agrees_add fun h => by unfold Big; omega) ?_)
    rw [length_filled hout]
    by_cases hroom : cap < out.length + litLen
    · rw [if_pos hroom, if_pos hroom]
      exact decodes_error _
    rw [if_neg hroom, if_neg hroom]
    refine decodes_bind (agrees_add fun h => by unfold Big; omega) ?_
    by_cases hshort : src.length < ip₁ + litLen
    · rw [if_pos hshort, if_pos (by rw [length_drop]; omega)]
      exact decodes_error _
    rw [if_neg hshort, if_neg (by rw [length_drop]; omega), slice_of_le (by omega), ok_bind]
    have hlits : ((src.drop ip₁).take litLen).length = litLen := length_lits (by omega)
    rw [blit_filled (by omega), ok_bind]
    generalize (src.drop ip₁).take litLen = lits at hlits ⊢
    have hout' : (out ++ lits).length = out.length + litLen := by rw [length_append, hlits]
    rw [drop_drop]
    obtain ⟨k, hk⟩ : ∃ k, k = ip₁ + litLen := ⟨_, rfl⟩
    rw [← hk]
    obtain rfl | hlt₁ := eq_or_lt_of_le (show k ≤ src.length by omega)
    · rw [if_pos le_rfl, drop_length, ← hout']
      exact decodes_ok (by omega)
    rw [if_neg (by omega), drop_eq_getElem_cons hlt₁]
    obtain heq | hlt₂ := eq_or_lt_of_le (show k + 1 ≤ src.length from hlt₁)
    · rw [if_pos (by omega), heq, drop_length]
      exact decodes_error _
    rw [if_neg (by omega), drop_eq_getElem_cons hlt₂, index_of (getElem?_eq_getElem hlt₁), ok_bind,
      index_of (getElem?_eq_getElem hlt₂), ok_bind, ← hout']
    dsimp only
    obtain ⟨offset, hoff⟩ : ∃ offset, offset = src[k].toNat + 256 * src[k + 1].toNat := ⟨_, rfl⟩
    rw [← hoff]
    by_cases hoffset : offset = 0 ∨ (out ++ lits).length < offset
    · rw [if_pos hoffset, if_pos hoffset]
      exact decodes_error _
    rw [if_neg hoffset, if_neg hoffset]
    obtain ⟨matchLen, ip₂, hmatch, hge₂, hip₂, hmatchLen, hextend₂⟩ :=
      extend_agrees (src[ip].toNat &&& 0x0F) MIN_MATCH (show k + 2 ≤ src.length from hlt₂)
        fun h => show Big src cap by unfold Big MIN_MATCH at *; omega
    unfold MIN_MATCH at hmatchLen
    rw [show k + 1 + 1 = k + 2 from rfl, hmatch]
    refine decodes_bind hextend₂ (decodes_bind (agrees_add fun h => by unfold Big; omega) ?_)
    rw [length_filled (by omega)]
    by_cases hroom₂ : cap < (out ++ lits).length + matchLen
    · rw [if_pos hroom₂, if_pos hroom₂]
      exact decodes_error _
    rw [if_neg hroom₂, if_neg hroom₂]
    obtain ⟨out', hcopy, hlength, hloop⟩ := @copyLoop_filled cap offset (out ++ lits).length
      ((out ++ lits).length - offset) matchLen 0 (out ++ lits) (by omega) (by omega) (by omega)
      rfl rfl
    dsimp only
    rw [hloop, ok_bind, hcopy, ok_bind, ← hlength]
    exact ih hip₂ (by omega) (by omega)

/-- A decoded block fills the front of the buffer, and no access left a buffer. -/
def Safe (src : List Byte) (cap : ℕ) : Checked (Except Error (ℕ × Buffer)) → Prop
  | .ok (.ok (n, dst)) => n ≤ cap ∧ dst.length = cap ∧
      ∀ i < cap, dst[i]? = some none ↔ n ≤ i
  | .ok (.error _) => True
  | .error trap => trap = .overflow ∧ Big src cap

/-- For every block and every output buffer, the decoder returns without an access outside
the block and the bytes it has written, or traps on a sum that only sizes near the end of
64 bits can reach. -/
theorem decode_safe (src : List Byte) (cap : ℕ) : Safe src cap (decode src (replicate cap none)) := by
  have hstart : filled cap [] = replicate cap none := rfl
  obtain ⟨r, -, hfits, hagrees⟩ :=
    @decodeLoop_decodes src [] cap src.length 0 (zero_le _) (by omega) (zero_le _)
  rw [hstart] at hagrees
  rw [decode]
  obtain hrun | ⟨hrun, hbig⟩ := hagrees
  · rw [show decodeLoop src (src.length + 1) 0 0 _ = _ from hrun]
    cases r with
    | error e => trivial
    | ok out =>
      have hout := hfits out rfl
      refine ⟨hout, length_filled hout, fun i hi => ?_⟩
      rw [filled, getElem?_append, length_map]
      split
      · next hlt => simp [hlt]
      · next hge =>
        rw [getElem?_replicate, if_pos (by omega)]
        simpa using hge
  · rw [show decodeLoop src (src.length + 1) 0 0 _ = _ from hrun]
    exact ⟨rfl, hbig⟩

end

end Innigkeit.Memory.Compress
