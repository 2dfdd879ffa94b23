import Innigkeit.Filesystem.Ext4.Volume

/-!
Path resolution. `lookup` rewrites the path in one work buffer each time it
meets a symbolic link; `resolve` says what the result should be, on the path as
a string. The two agree as long as the rest of the path is not moved down onto
itself, because `copyBackwards` copies from the end.
-/

namespace Innigkeit.Filesystem.Ext4

open List Function Prod.Lex

def SLASH : Byte := 0x2F

def DOT : Byte := 0x2E

def WORK_SIZE : Nat := 4096

/-- What path resolution reads from a volume. -/
structure Tree where
  lookupInDir : Nat → List Byte → Result Nat
  kind : Nat → Result Kind
  readlink : Nat → Result (List Byte)

def SbInfo.tree (sb : SbInfo) (d : Device) : Tree where
  lookupInDir := sb.lookupInDir d
  kind n := (sb.readInode d n).map Inode.kind
  readlink n := do
    let inode ← sb.readInode d n
    sb.readlinkInode d inode WORK_SIZE

/-- Move on while the bytes meet a test, at most `n` times. -/
def scan (test : Byte → Bool) (work : Bytes) : Nat → Nat → Nat
  | 0, pos => pos
  | n + 1, pos => if test (work pos) then scan test work n (pos + 1) else pos

/-- `std.mem.copyBackwards` inside one buffer: `n` bytes from `src` to `dst`, the last one first. -/
def copyBackwards (work : Bytes) (dst src : Nat) : Nat → Bytes
  | 0 => work
  | n + 1 => copyBackwards (Function.update work (dst + n) (work (src + n))) dst src n

/-- Put the target of a link before the rest of the path. -/
def compose (work : Bytes) (pos workLen : Nat) (target : List Byte) : Bytes :=
  let remainingLen := workLen - pos
  let needSep := 0 < remainingLen
  let prefixLen := target.length + if needSep then 1 else 0
  let moved := writeName (copyBackwards work prefixLen pos remainingLen) 0 target
  if needSep then Function.update moved target.length SLASH else moved

def composedLen (pos workLen : Nat) (target : List Byte) : Nat :=
  target.length + (if 0 < workLen - pos then 1 else 0) + (workLen - pos)

namespace Tree

variable (tree : Tree)

/-- The directory that `..` leads to; an error leaves it where it is. -/
def parent (dir : Nat) : Nat :=
  match tree.lookupInDir dir [DOT, DOT] with
  | .ok p => p
  | .error _ => dir

def lookupLoop : Nat → Bytes → Nat → Nat → Nat → Nat → Result Nat
  | 0, _, _, _, _, _ => .error .pathTooLong
  | fuel + 1, work, workLen, curDir, pos, symhops =>
    let cstart := scan (· = SLASH) work (workLen - pos) pos
    if workLen ≤ cstart then .ok curDir
    else
      let pos := scan (· ≠ SLASH) work (workLen - cstart) cstart
      let component := slice work cstart pos
      if component = [DOT] then lookupLoop fuel work workLen curDir pos symhops
      else if component = [DOT, DOT] then
        lookupLoop fuel work workLen (tree.parent curDir) pos symhops
      else
        match tree.lookupInDir curDir component with
        | .error e => .error e
        | .ok child =>
          match tree.kind child with
          | .error e => .error e
          | .ok kind =>
            if kind = .symlink then
              if symhops + 1 > MAX_SYMLINK_HOPS then .error .tooManySymlinks
              else
                match tree.readlink child with
                | .error e => .error e
                | .ok target =>
                  if target = [] then .error .badSymlink
                  else if composedLen pos workLen target ≥ WORK_SIZE then
                    .error .pathTooLong
                  else
                    lookupLoop fuel (compose work pos workLen target)
                      (composedLen pos workLen target)
                      (if target.head? = some SLASH then EXT4_ROOT_INO else curDir) 0
                      (symhops + 1)
            else if pos < workLen then
              if kind = .directory then lookupLoop fuel work workLen child pos symhops
              else .error .notADirectory
            else .ok child

/-- Every round uses up a byte of the path, and a path is replaced forty times at most. -/
def lookupFuel : Nat := (MAX_SYMLINK_HOPS + 1) * WORK_SIZE

def lookup (path : List Byte) : Result Nat :=
  if path.head? ≠ some SLASH then .error .invalidPath
  else if path.length ≥ WORK_SIZE then .error .pathTooLong
  else tree.lookupLoop lookupFuel (writeName (fun _ => 0xAA) 0 path) path.length EXT4_ROOT_INO 1 0

end Tree

def SbInfo.lookup (sb : SbInfo) (d : Device) (path : List Byte) : Result Nat :=
  (sb.tree d).lookup path

def joinPath (target rest : List Byte) : List Byte :=
  if rest = [] then target else target ++ SLASH :: rest

/-- One component of the reference resolution. -/
inductive Step where
  | finished (result : Result Nat)
  | enter (dir : Nat) (rest : List Byte)
  | link (child : Nat) (rest : List Byte)

namespace Tree

variable (tree : Tree)

def step (dir : Nat) (path : List Byte) : Step :=
  let path := path.dropWhile (· = SLASH)
  let component := path.takeWhile (· ≠ SLASH)
  let rest := path.dropWhile (· ≠ SLASH)
  if path = [] then .finished (.ok dir)
  else if component = [DOT] then .enter dir rest
  else if component = [DOT, DOT] then .enter (tree.parent dir) rest
  else
    match tree.lookupInDir dir component with
    | .error e => .finished (.error e)
    | .ok child =>
      match tree.kind child with
      | .error e => .finished (.error e)
      | .ok kind =>
        if kind = .symlink then .link child rest
        else if rest = [] then .finished (.ok child)
        else if kind = .directory then .enter child rest
        else .finished (.error .notADirectory)

theorem length_dropWhile_lt {path : List Byte} (h : path.dropWhile (· = SLASH) ≠ []) :
    ((path.dropWhile (· = SLASH)).dropWhile (· ≠ SLASH)).length < path.length := by
  cases hp : path.dropWhile (· = SLASH) with
  | nil => exact absurd hp h
  | cons b rest =>
    have hle := (path.dropWhile_suffix (· = SLASH)).length_le
    have hb : b ≠ SLASH := by
      have hne : path.dropWhile (· = SLASH) ≠ [] := h
      have := head_dropWhile_not (fun b => decide (b = SLASH)) hne
      simpa [hp] using this
    have hrest := (rest.dropWhile_suffix (· ≠ SLASH)).length_le
    rw [dropWhile_cons_of_pos (by simpa using hb)]
    rw [hp, length_cons] at hle
    omega

theorem length_of_enter {dir dir' : Nat} {path rest : List Byte}
    (h : tree.step dir path = .enter dir' rest) : rest.length < path.length := by
  have hrest : path.dropWhile (· = SLASH) ≠ [] ∧
      rest = (path.dropWhile (· = SLASH)).dropWhile (· ≠ SLASH) := by
    unfold step at h
    grind
  rw [hrest.2]
  exact length_dropWhile_lt hrest.1

/-- The reference resolution: at most `hops` links are followed. -/
def resolve (hops dir : Nat) (path : List Byte) : Result Nat :=
  match _hstep : tree.step dir path with
  | .finished r => r
  | .enter dir' rest => resolve hops dir' rest
  | .link child rest =>
    match hops with
    | 0 => .error .tooManySymlinks
    | hops + 1 =>
      match tree.readlink child with
      | .error e => .error e
      | .ok target =>
        if target = [] then .error .badSymlink
        else if (joinPath target rest).length ≥ WORK_SIZE then .error .pathTooLong
        else
          resolve hops (if target.head? = some SLASH then EXT4_ROOT_INO else dir)
            (joinPath target rest)
termination_by (hops, path.length)
decreasing_by
  · exact right _ (length_of_enter tree _hstep)
  · exact left _ _ (Nat.lt_succ_self _)

/-- The rest of the path is not moved down over itself: it moves up, or its old and its new
place do not overlap. -/
def MovesClear (targetLen pos restLen : Nat) : Prop :=
  restLen = 0 ∨ pos ≤ targetLen + 1 ∨ targetLen + 1 + restLen ≤ pos

/-- Every link that the reference resolution follows is composed with a clear move; `pos` counts
the bytes of the current path that are used up. -/
def Clear (hops dir pos : Nat) (path : List Byte) : Prop :=
  match _hstep : tree.step dir path with
  | .finished _ => True
  | .enter dir' rest => Clear hops dir' (pos + (path.length - rest.length)) rest
  | .link child rest =>
    match hops with
    | 0 => True
    | hops + 1 => ∀ target, tree.readlink child = .ok target → target ≠ [] →
        (joinPath target rest).length < WORK_SIZE →
        MovesClear target.length (pos + (path.length - rest.length)) rest.length ∧
        Clear hops (if target.head? = some SLASH then EXT4_ROOT_INO else dir) 0
          (joinPath target rest)
termination_by (hops, path.length)
decreasing_by
  · exact right _ (length_of_enter tree _hstep)
  · exact left _ _ (Nat.lt_succ_self _)

def resolvePath (path : List Byte) : Result Nat :=
  if path.head? ≠ some SLASH then .error .invalidPath
  else if path.length ≥ WORK_SIZE then .error .pathTooLong
  else tree.resolve MAX_SYMLINK_HOPS EXT4_ROOT_INO path.tail

variable {tree} {hops dir dir' pos child : Nat} {path rest : List Byte}

theorem resolve_finished {r : Result Nat} (h : tree.step dir path = .finished r) :
    tree.resolve hops dir path = r := by
  rw [resolve]
  split <;> simp_all

theorem resolve_enter (h : tree.step dir path = .enter dir' rest) :
    tree.resolve hops dir path = tree.resolve hops dir' rest := by
  rw [resolve]
  split <;> simp_all

theorem clear_finished {r : Result Nat} (h : tree.step dir path = .finished r) :
    tree.Clear hops dir pos path := by
  rw [Clear]
  split <;> simp_all

theorem clear_enter (h : tree.step dir path = .enter dir' rest) :
    tree.Clear hops dir pos path ↔
      tree.Clear hops dir' (pos + (path.length - rest.length)) rest := by
  rw [Clear]
  split <;> simp_all

theorem resolve_link_zero (h : tree.step dir path = .link child rest) :
    tree.resolve 0 dir path = .error .tooManySymlinks := by
  rw [resolve]
  split <;> simp_all

theorem resolve_link (h : tree.step dir path = .link child rest) :
    tree.resolve (hops + 1) dir path =
      match tree.readlink child with
      | .error e => .error e
      | .ok target =>
        if target = [] then .error .badSymlink
        else if (joinPath target rest).length ≥ WORK_SIZE then .error .pathTooLong
        else
          tree.resolve hops (if target.head? = some SLASH then EXT4_ROOT_INO else dir)
            (joinPath target rest) := by
  rw [resolve]
  split
  · simp_all
  · simp_all
  · next child' rest' heq =>
    rw [h] at heq
    cases heq
    rfl

theorem clear_link (h : tree.step dir path = .link child rest) :
    tree.Clear (hops + 1) dir pos path ↔ ∀ target, tree.readlink child = .ok target →
      target ≠ [] → (joinPath target rest).length < WORK_SIZE →
      MovesClear target.length (pos + (path.length - rest.length)) rest.length ∧
        tree.Clear hops (if target.head? = some SLASH then EXT4_ROOT_INO else dir) 0
          (joinPath target rest) := by
  rw [Clear]
  split <;> simp_all

end Tree

section

variable {work : Bytes} {test : Byte → Bool} {n pos i j k : Nat}

@[simp]
theorem length_slice (buf : Bytes) (i j : Nat) : (slice buf i j).length = j - i := by
  simp [slice]

theorem slice_self (buf : Bytes) (i : Nat) : slice buf i i = [] := by
  simp [slice]

theorem slice_eq_nil_iff : slice work i j = [] ↔ j ≤ i := by
  rw [← length_eq_zero_iff, length_slice]
  omega

theorem slice_cons (h : i < j) : slice work i j = work i :: slice work (i + 1) j := by
  obtain ⟨n, rfl⟩ : ∃ n, j = i + (n + 1) := ⟨j - i - 1, by omega⟩
  rw [slice, slice, show i + (n + 1) - i = n + 1 by omega,
    show i + (n + 1) - (i + 1) = n by omega, range_succ_eq_map, map_cons, map_map]
  congr 1
  refine map_congr_left fun m _ => ?_
  show work (i + (m + 1)) = _
  congr 1
  omega

/-- Where a scan stops: before it the test holds, behind it the rest of the bytes stands. -/
theorem scan_spec (test : Byte → Bool) (work : Bytes) (n pos : Nat) :
    pos ≤ scan test work n pos ∧ scan test work n pos ≤ pos + n ∧
      slice work pos (scan test work n pos) = (slice work pos (pos + n)).takeWhile test ∧
      slice work (scan test work n pos) (pos + n) = (slice work pos (pos + n)).dropWhile test := by
  induction n generalizing pos with
  | zero => simp [scan, slice_self]
  | succ n ih =>
    obtain ⟨hle, hle', htake, hdrop⟩ := ih (pos + 1)
    rw [show pos + 1 + n = pos + (n + 1) by omega] at hle' htake hdrop
    rw [scan, slice_cons (show pos < pos + (n + 1) by omega)]
    cases htest : test (work pos) with
    | true =>
      rw [if_pos rfl, takeWhile_cons_of_pos htest, dropWhile_cons_of_pos htest]
      refine ⟨by omega, by omega, ?_, hdrop⟩
      rw [slice_cons (by omega), htake]
    | false =>
      rw [if_neg (by simp), takeWhile_cons_of_neg (by simp [htest]),
        dropWhile_cons_of_neg (by simp [htest]), slice_self]
      exact ⟨le_rfl, by omega, rfl, slice_cons (by omega)⟩

/-- A move upwards, or one between places that do not overlap, delivers the old bytes. -/
theorem copyBackwards_apply {dst src : Nat} (h : src ≤ dst ∨ dst + n ≤ src) :
    copyBackwards work dst src n k =
      if dst ≤ k ∧ k < dst + n then work (src + (k - dst)) else work k := by
  induction n generalizing work with
  | zero => simp [copyBackwards, show ¬(dst ≤ k ∧ k < dst) by omega]
  | succ n ih =>
    rw [copyBackwards, ih (by omega)]
    by_cases hk : k = dst + n
    · subst hk
      rw [if_neg (by omega), if_pos (by omega), update_self]
      congr 1
      omega
    · by_cases hin : dst ≤ k ∧ k < dst + n
      · rw [if_pos hin, if_pos (by omega), update_of_ne (by omega)]
      · rw [if_neg hin, if_neg (by omega), update_of_ne hk]

theorem slice_congr {work' : Bytes} {i' j' : Nat} (hlen : j - i = j' - i')
    (h : ∀ k, k < j - i → work (i + k) = work' (i' + k)) : slice work i j = slice work' i' j' := by
  rw [slice, slice, ← hlen]
  exact map_congr_left fun k hk => h k (mem_range.mp hk)

theorem slice_append (hij : i ≤ j) (hjk : j ≤ k) :
    slice work i k = slice work i j ++ slice work j k := by
  rw [slice, slice, slice, show k - i = (j - i) + (k - j) by omega, range_add, map_append, map_map]
  congr 1
  refine map_congr_left fun m _ => ?_
  show work (i + (j - i + m)) = _
  congr 1
  omega

theorem slice_writeName (buf : Bytes) (name : List Byte) :
    slice (writeName buf i name) i (i + name.length) = name := by
  refine ext_getElem (by simp) fun k h₁ h₂ => ?_
  simp [slice, writeName, h₂]

theorem slice_compose {workLen : Nat} {target : List Byte} (hpos : pos ≤ workLen)
    (hclear : Tree.MovesClear target.length pos (workLen - pos)) :
    slice (compose work pos workLen target) 0 (composedLen pos workLen target) =
      joinPath target (slice work pos workLen) := by
  unfold compose composedLen joinPath
  by_cases hrest : 0 < workLen - pos
  · have hne : slice work pos workLen ≠ [] := by
      rw [ne_eq, slice_eq_nil_iff]
      omega
    have hmove : pos ≤ target.length + 1 ∨ target.length + 1 + (workLen - pos) ≤ pos := by
      rcases hclear with h | h
      · omega
      · exact h
    simp only [hrest, if_true]
    rw [if_neg hne, slice_append (Nat.zero_le target.length) (by omega),
      slice_cons (show target.length < target.length + 1 + (workLen - pos) by omega)]
    congr 1
    · have hname := slice_writeName (i := 0)
        (copyBackwards work (target.length + 1) pos (workLen - pos)) target
      rw [zero_add] at hname
      refine Eq.trans (slice_congr rfl fun k hk => ?_) hname
      exact update_of_ne (by omega) ..
    · congr 1
      · exact update_self ..
      · refine slice_congr (by omega) fun k hk => ?_
        rw [update_of_ne (by omega), writeName, if_neg (by omega),
          copyBackwards_apply hmove, if_pos (by omega)]
        congr 1
        omega
  · have hnil : slice work pos workLen = [] := slice_eq_nil_iff.mpr (by omega)
    have hzero : workLen - pos = 0 := by omega
    simp only [hnil, if_true, add_zero, hzero, lt_irrefl, if_false]
    have hname := slice_writeName (i := 0) (copyBackwards work target.length pos 0) target
    rwa [zero_add] at hname

theorem length_joinPath {workLen : Nat} (target : List Byte) :
    (joinPath target (slice work pos workLen)).length = composedLen pos workLen target := by
  unfold joinPath composedLen
  by_cases hrest : 0 < workLen - pos
  · rw [if_neg (by rw [slice_eq_nil_iff]; omega), if_pos hrest, length_append,
      length_cons, length_slice]
    omega
  · rw [if_pos (slice_eq_nil_iff.mpr (by omega)), if_neg hrest]
    omega

end

namespace Tree

variable {tree : Tree}

/-- A round of the loop is a step of the reference. -/
theorem lookupLoop_step (fuel : Nat) (work : Bytes) {workLen pos : Nat} (dir symhops : Nat)
    (hpos : pos ≤ workLen) :
    (∃ r, tree.step dir (slice work pos workLen) = .finished r ∧
      tree.lookupLoop (fuel + 1) work workLen dir pos symhops = r) ∨
    ∃ next, pos < next ∧ next ≤ workLen ∧
      ((∃ dir', tree.step dir (slice work pos workLen) = .enter dir' (slice work next workLen) ∧
        tree.lookupLoop (fuel + 1) work workLen dir pos symhops =
          tree.lookupLoop fuel work workLen dir' next symhops) ∨
      ∃ child, tree.step dir (slice work pos workLen) = .link child (slice work next workLen) ∧
        tree.lookupLoop (fuel + 1) work workLen dir pos symhops =
          if symhops + 1 > MAX_SYMLINK_HOPS then .error .tooManySymlinks
          else
            match tree.readlink child with
            | .error e => .error e
            | .ok target =>
              if target = [] then .error .badSymlink
              else if composedLen next workLen target ≥ WORK_SIZE then .error .pathTooLong
              else
                tree.lookupLoop fuel (compose work next workLen target)
                  (composedLen next workLen target)
                  (if target.head? = some SLASH then EXT4_ROOT_INO else dir) 0 (symhops + 1)) := by
  obtain ⟨hle, hle', -, hskip⟩ := scan_spec (· = SLASH) work (workLen - pos) pos
  rw [show pos + (workLen - pos) = workLen by omega] at hle' hskip
  have hshort := @length_dropWhile_lt (slice work pos workLen)
  rw [lookupLoop, step]
  simp only [← hskip, slice_eq_nil_iff] at hshort ⊢
  generalize scan (· = SLASH) work (workLen - pos) pos = cstart at *
  by_cases hend : workLen ≤ cstart
  · simp only [hend, if_true]
    exact .inl ⟨_, rfl, rfl⟩
  · obtain ⟨-, hle₂, hcomp, hrest⟩ := scan_spec (· ≠ SLASH) work (workLen - cstart) cstart
    rw [show cstart + (workLen - cstart) = workLen by omega] at hle₂ hcomp hrest
    simp only [hend, if_false, ← hcomp, ← hrest, slice_eq_nil_iff] at hshort ⊢
    generalize scan (· ≠ SLASH) work (workLen - cstart) cstart = next at *
    rw [ne_eq, slice_eq_nil_iff, length_slice, length_slice] at hshort
    have hlt : pos < next := by
      have := hshort hend
      omega
    -- the branches of the loop are those of the step
    split
    · exact .inr ⟨next, hlt, hle₂, .inl ⟨_, rfl, rfl⟩⟩
    split
    · exact .inr ⟨next, hlt, hle₂, .inl ⟨_, rfl, rfl⟩⟩
    split
    · exact .inl ⟨_, rfl, rfl⟩
    split
    · exact .inl ⟨_, rfl, rfl⟩
    split
    · exact .inr ⟨next, hlt, hle₂, .inr ⟨_, rfl, rfl⟩⟩
    by_cases hmore : workLen ≤ next
    · simp only [hmore, not_lt.mpr hmore, if_true, if_false]
      exact .inl ⟨_, rfl, rfl⟩
    · simp only [hmore, not_le.mp hmore, if_true, if_false]
      split
      · exact .inr ⟨next, hlt, hle₂, .inl ⟨_, rfl, rfl⟩⟩
      · exact .inl ⟨_, rfl, rfl⟩

/-- The loop computes the reference resolution of what is left of its path: the fuel covers the
bytes that are left and the links that may still be followed. -/
theorem lookupLoop_eq (fuel : Nat) {work : Bytes} {workLen dir pos symhops : Nat}
    (hpos : pos ≤ workLen) (hlen : workLen < WORK_SIZE) (hhops : symhops ≤ MAX_SYMLINK_HOPS)
    (hfuel : (MAX_SYMLINK_HOPS - symhops) * WORK_SIZE + (workLen - pos) < fuel)
    (hclear : tree.Clear (MAX_SYMLINK_HOPS - symhops) dir pos (slice work pos workLen)) :
    tree.lookupLoop fuel work workLen dir pos symhops =
      tree.resolve (MAX_SYMLINK_HOPS - symhops) dir (slice work pos workLen) := by
  induction fuel generalizing work workLen dir pos symhops with
  | zero => omega
  | succ fuel ih =>
    rcases tree.lookupLoop_step fuel work dir symhops hpos with
      ⟨r, hstep, hloop⟩ | ⟨next, hlt, hnext, hround⟩
    · rw [hloop, resolve_finished hstep]
    have hused : pos + ((slice work pos workLen).length - (slice work next workLen).length) =
        next := by
      rw [length_slice, length_slice]
      omega
    rcases hround with ⟨dir', hstep, hloop⟩ | ⟨child, hstep, hloop⟩
    · have hc := (clear_enter hstep).mp hclear
      rw [hused] at hc
      rw [hloop, resolve_enter hstep]
      exact ih hnext hlen hhops (by omega) hc
    · rw [hloop]
      by_cases hmax : symhops + 1 > MAX_SYMLINK_HOPS
      · rw [if_pos hmax, show MAX_SYMLINK_HOPS - symhops = 0 by omega, resolve_link_zero hstep]
      · have hleft : MAX_SYMLINK_HOPS - symhops = MAX_SYMLINK_HOPS - (symhops + 1) + 1 := by omega
        rw [hleft] at hclear
        rw [if_neg hmax, hleft, resolve_link hstep]
        cases htarget : tree.readlink child with
        | error e => rfl
        | ok target =>
          simp only [length_joinPath]
          split
          · rfl
          · next hne =>
            split
            · rfl
            · next hfits =>
              obtain ⟨hmoves, hclear'⟩ :=
                (clear_link hstep).mp hclear target htarget hne (by rw [length_joinPath]; omega)
              rw [hused, length_slice] at hmoves
              rw [← slice_compose hnext hmoves] at hclear' ⊢
              refine ih (Nat.zero_le _) (by omega) (by omega) ?_ hclear'
              rw [hleft, add_mul] at hfuel
              omega

/-- Path resolution agrees with the reference wherever every link is composed with a clear
move. -/
theorem lookup_eq_resolvePath (path : List Byte)
    (h : tree.Clear MAX_SYMLINK_HOPS EXT4_ROOT_INO 1 path.tail) :
    tree.lookup path = tree.resolvePath path := by
  unfold lookup resolvePath
  split
  · rfl
  · next hslash =>
    split
    · rfl
    · next hlen =>
      have hhead : path.head? = some SLASH := not_not.mp hslash
      obtain ⟨rest, rfl⟩ : ∃ rest, path = SLASH :: rest := by
        cases path with
        | nil => cases hhead
        | cons b rest =>
          cases hhead
          exact ⟨rest, rfl⟩
      have hpath : slice (writeName (fun _ => 0xAA) 0 (SLASH :: rest)) 1
          (SLASH :: rest).length = rest := by
        have hname := slice_writeName (i := 0) (fun _ => 0xAA) (SLASH :: rest)
        rw [zero_add, slice_cons (by simp)] at hname
        exact (List.cons.inj hname).2
      rw [tail_cons] at h ⊢
      have hfuel : (MAX_SYMLINK_HOPS - 0) * WORK_SIZE + ((SLASH :: rest).length - 1) <
          lookupFuel := by
        simp only [lookupFuel, add_mul, Nat.sub_zero]
        omega
      rw [lookupLoop_eq lookupFuel (by simp) (by omega) (Nat.zero_le _) hfuel (by rwa [hpath]),
        hpath]
      rfl

/-- A root with the links `l` and `aa` to its directory `x`, which holds the file `b`. -/
def sample : Tree where
  lookupInDir dir name :=
    if dir = 2 ∧ name = [0x78] then .ok 4
    else if dir = 2 ∧ (name = [0x6C] ∨ name = [0x61, 0x61]) then .ok 3
    else if dir = 4 ∧ name = [0x62] then .ok 5
    else .error .notFound
  kind n := .ok (if n = 3 then .symlink else if n = 5 then .regular else .directory)
  readlink _ := .ok [0x78]

theorem sample_target :
    sample.step 2 [0x78, 0x2F, 0x2F, 0x62] = .enter 4 [0x2F, 0x2F, 0x62] ∧
      sample.step 4 [0x2F, 0x2F, 0x62] = .finished (.ok 5) := by
  exact ⟨rfl, rfl⟩

theorem lookup_eq_resolvePath_link :
    sample.lookup [0x2F, 0x6C, 0x2F, 0x62] = sample.resolvePath [0x2F, 0x6C, 0x2F, 0x62] := by
  have hlink : sample.step 2 [0x6C, 0x2F, 0x62] = .link 3 [0x2F, 0x62] := rfl
  refine lookup_eq_resolvePath _ ((clear_link hlink).mpr ?_)
  intro target htarget _ _
  cases htarget
  refine ⟨.inr (.inl (by decide)), ?_⟩
  exact (clear_enter sample_target.1).mpr (clear_finished sample_target.2)

/-- The link `aa` to `x` in `/aa/b`: the rest `/b` is moved one byte down, its last byte first,
and comes out as `bb`. -/
theorem rest_moved_over_itself :
    sample.lookup [0x2F, 0x61, 0x61, 0x2F, 0x62] = .error .notFound ∧
      sample.resolvePath [0x2F, 0x61, 0x61, 0x2F, 0x62] = .ok 5 := by
  refine ⟨by decide, ?_⟩
  have hlink : sample.step 2 [0x61, 0x61, 0x2F, 0x62] = .link 3 [0x2F, 0x62] := rfl
  show sample.resolve (39 + 1) 2 [0x61, 0x61, 0x2F, 0x62] = .ok 5
  rw [resolve_link hlink]
  show sample.resolve 39 2 [0x78, 0x2F, 0x2F, 0x62] = .ok 5
  rw [resolve_enter sample_target.1, resolve_finished sample_target.2]

end Tree

end Innigkeit.Filesystem.Ext4
