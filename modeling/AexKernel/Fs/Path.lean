import AexKernel.Basic
import AexKernel.Library.Ensures

/-! # Paths (`fs/path.cpp`)

Strings are lists of bytes without their terminator, buffers are lists of bytes in which every store
is checked. -/

namespace AexKernel.Fs

open Library List

/-- The character `'/'`. -/
def slash : UInt8 := 47

/-- The character `'.'`. -/
def dot : UInt8 := 46

/-- `MAX_PATH_LEN`. -/
def maxPathLen : ℕ := 2048

/-- `MAX_FILENAME_LEN`. -/
def maxFilenameLen : ℕ := 256

/-- A string with a terminator, as its bytes before it. -/
structure CString where
  bytes : List UInt8
  nul : 0 ∉ bytes

def cstring (buffer : List UInt8) : List UInt8 := buffer.takeWhile (· ≠ 0)

theorem cstring_append (path : CString) (rest : List UInt8) :
    cstring (path.bytes ++ 0 :: rest) = path.bytes := by
  have ha : ∀ c ∈ path.bytes, decide (c ≠ 0) = true :=
    fun c hc => decide_eq_true fun hz => path.nul (hz ▸ hc)
  rw [cstring, takeWhile_append_of_pos ha]
  exact append_nil _

/-! ## Buffers -/

/-- `buffer[i] = c`. -/
def store (buffer : List UInt8) (i : ℕ) (c : UInt8) : Except Fault (List UInt8) :=
  if i < buffer.length then .ok (buffer.set i c) else .error .outOfBounds

/-- `memcpy(&buffer[i], bytes, ...)`. -/
def storeAll (buffer : List UInt8) (i : ℕ) : List UInt8 → Except Fault (List UInt8)
  | [] => .ok buffer
  | c :: rest => do storeAll (← store buffer i c) (i + 1) rest

/-- `strncpy(&buffer[i], src, num)`. -/
def strncpy (buffer : List UInt8) (i : ℕ) (src : List UInt8) (num : ℕ) :
    Except Fault (List UInt8) := do
  let len := min src.length (num - 1)
  let buffer ← storeAll buffer i (src.take len)
  store buffer (i + len) 0

/-! ## Walking over a path -/

/-- `Walker`: the path from `m_index` on, and `m_too_long`. -/
structure Walker where
  rest : List UInt8
  tooLong : Bool := false

/-- `Walker::next()`. -/
def Walker.next (w : Walker) : Option (List UInt8) × Walker :=
  if w.rest = [] ∨ w.tooLong then (none, w)
  else
    let rest := w.rest.dropWhile (· = slash)
    let piece := rest.takeWhile (· ≠ slash)
    if maxFilenameLen ≤ piece.length then (none, ⟨rest.drop (maxFilenameLen - 1), true⟩)
    else if piece = [] then (none, ⟨rest, false⟩)
    else (some piece, ⟨rest.drop piece.length, false⟩)

/-- The pieces that up to `fuel` calls of `next` return. -/
def Walker.piecesWithin (w : Walker) : ℕ → List (List UInt8)
  | 0 => []
  | fuel + 1 =>
    match w.next with
    | (none, _) => []
    | (some piece, w) => piece :: w.piecesWithin fuel

/-- The pieces of a path. A piece takes up at least one byte. -/
def pieces (path : List UInt8) : List (List UInt8) :=
  (Walker.mk path false).piecesWithin (path.length + 1)

/-! ## Canonical paths -/

/-- `while (index > 0 && buffer[index] != '/') index--`. -/
def back (buffer : List UInt8) : ℕ → ℕ
  | 0 => 0
  | index + 1 => if buffer[index + 1]? = some slash then index + 1 else back buffer index

/-- The loop of `canonize_path` over the pieces of the path. -/
def canonizePieces (bufferLen : ℕ) :
    List (List UInt8) → ℕ → List UInt8 → Except Fault (Option ℕ × List UInt8)
  | [], index, buffer => .ok (some index, buffer)
  | piece :: rest, index, buffer =>
    if piece = [dot] then canonizePieces bufferLen rest index buffer
    else if piece = [dot, dot] then
      let index := back buffer index
      if index = 0 then canonizePieces bufferLen rest index buffer
      else do canonizePieces bufferLen rest index (← store buffer index 0)
    else if bufferLen ≤ index + piece.length then .ok (none, buffer)
    else do
      let buffer ← store buffer index slash
      let buffer ← strncpy buffer (index + 1) piece maxPathLen
      let index := index + 1 + piece.length
      canonizePieces bufferLen rest index (← store buffer index 0)

/-- The base path, if there is one and the path is not absolute. -/
def canonizeBase (path basePath : List UInt8) (bufferLen : ℕ) (buffer : List UInt8) :
    Except Fault (Option ℕ × List UInt8) :=
  if basePath ≠ [] ∧ path.head? ≠ some slash then
    if bufferLen < basePath.length then .ok (none, buffer)
    else do
      let buffer ← storeAll buffer 0 basePath
      let buffer ← store buffer basePath.length 0
      if basePath.getLast? = some slash then return (some (basePath.length - 1), buffer)
      else return (some basePath.length, buffer)
  else .ok (some 0, buffer)

/-- The slash at the end of the path. `ends_with_slash` reads the last byte of the path. -/
def canonizeEnd (path : List UInt8) (bufferLen index : ℕ) (buffer : List UInt8) :
    Except Fault (Bool × List UInt8) :=
  match path.getLast? with
  | none => .error .outOfBounds
  | some last =>
    if last = slash then
      if bufferLen ≤ index then .ok (false, buffer)
      else do
        let buffer ← store buffer index slash
        return (true, ← store buffer (index + 1) 0)
    else .ok (true, buffer)

/-- `canonize_path(path, base_path, buffer, buffer_len)`. -/
def canonizePath (path basePath : List UInt8) (buffer : List UInt8) (bufferLen : ℕ) :
    Except Fault (Bool × List UInt8) :=
  if bufferLen < 2 then .ok (false, buffer)
  else do
    let bufferLen := bufferLen - 1
    let buffer ← store buffer 0 slash
    let buffer ← store buffer 1 0
    let buffer ← store buffer bufferLen 0
    match ← canonizeBase path basePath bufferLen buffer with
    | (none, buffer) => return (false, buffer)
    | (some index, buffer) =>
      match ← canonizePieces bufferLen (pieces path) index buffer with
      | (none, buffer) => return (false, buffer)
      | (some index, buffer) => canonizeEnd path bufferLen index buffer

/-- A string begins with `'/'`, and none of its components is empty, `"."` or `".."`. -/
def Canonical (path : List UInt8) : Prop :=
  path.head? = some slash ∧ (path = [slash] ∨
    ∀ component ∈ path.tail.splitOn slash,
      component ≠ [] ∧ component ≠ [dot] ∧ component ≠ [dot, dot])
deriving Decidable

/-! ## What the functions keep -/

/-- The computation returns, and what it returns satisfies `P`. -/
abbrev Succeeds {α : Type} (x : Except Fault α) (P : α → Prop) : Prop :=
  Ensures (fun _ => True) x P

/-- A buffer of `size` bytes that begins with a slash. -/
def Rooted (size : ℕ) (buffer : List UInt8) : Prop :=
  buffer.length = size ∧ buffer[0]? = some slash

/-- A buffer of `size` bytes with a terminator at its end and, for the paths of a process, a slash at
its beginning. -/
structure Kept (root : Prop) (size : ℕ) (buffer : List UInt8) : Prop where
  length : buffer.length = size
  root : root → buffer[0]? = some slash
  nul : buffer[size - 1]? = some 0

variable {root : Prop} {size i index bufferLen : ℕ} {buf path basePath : List UInt8} {c : UInt8}

variable {before old after bytes src : List UInt8}

theorem storeAll_append (h : old.length = bytes.length) :
    storeAll (before ++ (old ++ after)) before.length bytes = .ok (before ++ (bytes ++ after)) := by
  induction bytes generalizing before old with
  | nil =>
    obtain rfl := length_eq_zero_iff.mp h
    rfl
  | cons c rest ih =>
    obtain ⟨o, old, rfl⟩ := exists_cons_of_length_eq_add_one h
    have hs : store (before ++ (o :: old ++ after)) before.length c =
        .ok (before ++ [c] ++ (old ++ after)) := by
      rw [store, if_pos (by simp)]
      simp
    have hr : storeAll (before ++ [c] ++ (old ++ after)) (before ++ [c]).length rest =
        .ok (before ++ [c] ++ (rest ++ after)) := ih (Nat.succ.inj h)
    rw [length_append, length_singleton] at hr
    rw [storeAll, hs, ok_bind, hr, append_assoc, singleton_append, cons_append]

theorem storeAll_zero (hf : bytes.length ≤ buf.length) :
    storeAll buf 0 bytes = .ok (bytes ++ buf.drop bytes.length) := by
  have hold : (buf.take bytes.length).length = bytes.length := length_take_of_le hf
  have hc : storeAll ([] ++ (buf.take bytes.length ++ buf.drop bytes.length)) 0 bytes =
      .ok ([] ++ (bytes ++ buf.drop bytes.length)) := storeAll_append hold
  rwa [nil_append, take_append_drop, nil_append] at hc

section

variable (h : Kept root size buf)
include h

theorem Kept.store (hi : i < size) (ho : root → 0 < i ∨ c = slash) (he : i + 1 < size ∨ c = 0) :
    Succeeds (store buf i c) (Kept root size) := by
  rw [Fs.store, if_pos (h.length.symm ▸ hi)]
  refine ⟨length_set.trans h.length, fun hr => ?_, ?_⟩
  · rw [getElem?_set]
    split_ifs with hz hn
    · rw [(ho hr).resolve_left (by omega)]
    · exact absurd (h.length.symm ▸ hi) hn
    · exact h.root hr
  rw [getElem?_set]
  split_ifs with hl hn
  · rw [he.resolve_left (by omega)]
  · exact absurd (h.length.symm ▸ hi) hn
  · exact h.nul

theorem Kept.storeAll (hf : i + bytes.length < size) (ho : root → 0 < i) :
    Succeeds (storeAll buf i bytes) (Kept root size) := by
  induction bytes generalizing buf i with
  | nil => exact h
  | cons c rest ih =>
    rw [length_cons] at hf
    exact (h.store (by omega) (fun hr => .inl (ho hr)) (.inl (by omega))).bind fun b hb =>
      ih hb (by omega) fun _ => by omega

theorem Kept.strncpy {num : ℕ} (hf : i + src.length < size) (hp : 0 < i) :
    Succeeds (strncpy buf i src num) (Kept root size) := by
  have hl : (src.take (min src.length (num - 1))).length ≤ src.length := length_take_le' ..
  refine (h.storeAll (by omega) fun _ => hp).bind fun b hb => ?_
  exact hb.store (by omega) (fun _ => .inl (by omega)) (.inr rfl)

end

theorem back_le (buf : List UInt8) (index : ℕ) : back buf index ≤ index := by
  induction index with
  | zero => exact le_rfl
  | succ index ih =>
    rw [back]
    split_ifs
    · exact le_rfl
    · omega

section

variable (h : Kept root (bufferLen + 1) buf)
include h

theorem Kept.canonizePieces {l : List (List UInt8)} (hi : index ≤ bufferLen) :
    Succeeds (canonizePieces bufferLen l index buf) fun result =>
      Kept root (bufferLen + 1) result.2 ∧ ∀ index ∈ result.1, index ≤ bufferLen := by
  induction l generalizing index buf with
  | nil =>
    refine ⟨h, fun j hj => ?_⟩
    obtain rfl := Option.mem_some.mp hj
    exact hi
  | cons piece rest ih =>
    rw [Fs.canonizePieces]
    refine .ite (fun _ => ih h hi) fun _ => .ite (fun _ => ?_) fun _ =>
      Ensures.ite (fun _ => ⟨h, fun j hj => nomatch hj⟩) fun hf => ?_
    · have ha := back_le buf index
      dsimp only
      refine .ite (fun _ => ih h (by omega)) fun hz => ?_
      exact (h.store (by omega) (fun _ => .inl (by omega)) (.inr rfl)).bind fun b hb =>
        ih hb (by omega)
    refine (h.store (by omega) (fun _ => .inr rfl) (.inl (by omega))).bind fun b1 hb1 => ?_
    refine (hb1.strncpy (by omega) (by omega)).bind fun b2 hb2 => ?_
    exact (hb2.store (by omega) (fun _ => .inl (by omega)) (.inr rfl)).bind fun b3 hb3 =>
      ih hb3 (by omega)

theorem Kept.canonizeBase (ha : root → ∀ c ∈ basePath.head?, c = slash) :
    Succeeds (canonizeBase path basePath bufferLen buf) fun result =>
      Kept root (bufferLen + 1) result.2 ∧ ∀ index ∈ result.1, index ≤ bufferLen := by
  rw [Fs.canonizeBase]
  refine .ite (fun he => ?_) fun _ => ⟨h, fun j hj => ?_⟩
  · refine .ite (fun _ => ⟨h, fun j hj => nomatch hj⟩) fun hf => ?_
    have hc : Succeeds (Fs.storeAll buf 0 basePath) (Kept root (bufferLen + 1)) := by
      cases basePath with
      | nil => exact h
      | cons first rest =>
        rw [length_cons] at hf
        exact (h.store (by omega) (fun hr => .inr (ha hr first rfl)) (.inl (by omega))).bind
          fun b hb => hb.storeAll (by omega) fun _ => by omega
    have hl : 0 < basePath.length := length_pos_iff.mpr he.1
    refine hc.bind fun b1 hb1 => ?_
    refine (hb1.store (by omega) (fun _ => .inl hl) (.inr rfl)).bind fun b2 hb2 => ?_
    refine .ite (fun _ => ⟨hb2, fun j hj => ?_⟩) fun _ => ⟨hb2, fun j hj => ?_⟩
    · obtain rfl := Option.mem_some.mp hj
      omega
    · obtain rfl := Option.mem_some.mp hj
      omega
  · obtain rfl := Option.mem_some.mp hj
    exact Nat.zero_le _

theorem Kept.canonizeEnd (hp : path ≠ []) :
    Succeeds (canonizeEnd path bufferLen index buf) fun result =>
      Kept root (bufferLen + 1) result.2 := by
  rw [Fs.canonizeEnd, getLast?_eq_some_getLast hp]
  refine .ite (fun _ => ?_) fun _ => h
  refine .ite (fun _ => h) fun hf => ?_
  refine (h.store (by omega) (fun _ => .inr rfl) (.inl (by omega))).bind fun b1 hb1 => ?_
  exact (hb1.store (by omega) (fun _ => .inl (by omega)) (.inr rfl)).bind fun b2 hb2 => hb2

end

/-- **`canonize_path`** keeps to its buf. -/
theorem canonizePath_kept (hl : buf.length = bufferLen) (hi : 2 ≤ bufferLen)
    (hp : path ≠ []) (hb : root → ∀ c ∈ basePath.head?, c = slash) :
    Succeeds (canonizePath path basePath buf bufferLen) fun result =>
      Kept root bufferLen result.2 := by
  obtain ⟨last, rfl⟩ : ∃ last, bufferLen = last + 1 := ⟨bufferLen - 1, by omega⟩
  have hs : Kept root (last + 1) (((buf.set 0 slash).set 1 0).set last 0) := by
    refine ⟨by simp [hl], fun _ => ?_, ?_⟩
    · rw [getElem?_set_ne (by omega), getElem?_set_ne (by omega), getElem?_set_self (by omega)]
    · exact getElem?_set_self (by simp [hl])
  rw [canonizePath, if_neg (by omega), Nat.add_sub_cancel]
  dsimp only
  rw [store, if_pos (by omega), ok_bind, store, if_pos (by simp; omega), ok_bind, store,
    if_pos (by simp [hl]), ok_bind]
  refine (hs.canonizeBase hb).bind fun result hr => ?_
  obtain ⟨_ | index, b4⟩ := result
  · exact hr.1
  refine (hr.1.canonizePieces (hr.2 index rfl)).bind fun result hr => ?_
  obtain ⟨_ | index, b5⟩ := result
  · exact hr.1
  · exact hr.1.canonizeEnd hp

theorem canonizePath_rooted (hl : buf.length = bufferLen) (hs : 2 ≤ bufferLen)
    (hp : path ≠ []) (hb : ∀ c ∈ basePath.head?, c = slash) :
    Succeeds (canonizePath path basePath buf bufferLen) fun result =>
      Rooted bufferLen result.2 :=
  (canonizePath_kept hl hs hp fun _ : True => hb).mono fun _ h => ⟨h.length, h.root trivial⟩

/-- **Canonicalisation respects its buffer**: no store is outside of it, and it has a terminator. -/
theorem canonizePath_terminated (path basePath buffer : List UInt8) (hpath : path ≠ [])
    (hsize : 2 ≤ buffer.length) :
    ∃ result, canonizePath path basePath buffer buffer.length = .ok result ∧
      result.2.length = buffer.length ∧ 0 ∈ result.2 := by
  have hkept : Succeeds (canonizePath path basePath buffer buffer.length) fun result =>
      Kept False buffer.length result.2 := canonizePath_kept rfl hsize hpath False.elim
  obtain ⟨result, hok, hres⟩ := hkept.exists_ok
  exact ⟨result, hok, hres.length, mem_of_getElem? hres.nul⟩

theorem canonizePath_terminated_two :
    ∃ result, canonizePath [slash] [] [1, 1] 2 = .ok result ∧ result.2.length = 2 ∧ 0 ∈ result.2 :=
  canonizePath_terminated [slash] [] [1, 1] (by decide) (by decide)

end AexKernel.Fs
