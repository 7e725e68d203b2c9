import AexKernel.Fs.Path

/-! # The components of a path (`fs/path.cpp`)

`Walker`, `count_levels` and `is_valid` each scan a path on their own. The first two agree on its
components; `is_valid` counts the characters of all components together. -/

namespace AexKernel.Fs

open Library List

/-- The maximal runs of characters other than a slash. -/
def components (path : List UInt8) : List (List UInt8) := (path.splitOn slash).filter (· ≠ [])

@[simp] theorem components_nil : components [] = [] := rfl

@[simp] theorem components_slash (path : List UInt8) :
    components (slash :: path) = components path := by
  simp [components, splitOn, splitOnP_cons_eq_if_modifyHead]

theorem eq_false_of_head?_dropWhile {p : UInt8 → Bool} {path : List UInt8} {c : UInt8}
    (h : c ∈ (path.dropWhile p).head?) : p c = false := by
  have hn := head?_dropWhile_not p path
  rwa [h] at hn

variable {piece rest path buffer front : List UInt8}

theorem ne_slash_of_mem_head? : ∀ c ∈ (path.dropWhile (· = slash)).head?, c ≠ slash := by
  intro c hc
  simpa using eq_false_of_head?_dropWhile hc

theorem components_append (hp : slash ∉ piece) (hn : piece ≠ [])
    (hr : ∀ c ∈ rest.head?, c = slash) :
    components (piece ++ rest) = piece :: components rest := by
  have ho : ∀ c ∈ piece, (c == slash) = false := by
    intro c hc
    simpa using fun he : c = slash => hp (he ▸ hc)
  cases rest with
  | nil => simp [components, splitOn, splitOnP_eq_singleton ho, hn]
  | cons c rest =>
    obtain rfl : c = slash := hr c rfl
    rw [components_slash, components, splitOn,
      splitOnP_append_cons_of_forall_mem ho slash (by simp)]
    simp [components, splitOn, hn]

theorem components_dropWhile (path : List UInt8) :
    components (path.dropWhile (· = slash)) = components path := by
  induction path with
  | nil => rfl
  | cons c path ih =>
    by_cases hc : c = slash
    · simp [hc, ih]
    · simp [hc]

/-- A path that begins with another character than a slash begins with its first component. -/
theorem components_eq (hr : ∀ c ∈ rest.head?, c ≠ slash) (hn : rest ≠ []) :
    rest.takeWhile (· ≠ slash) ≠ [] ∧
      components rest = rest.takeWhile (· ≠ slash) :: components (rest.dropWhile (· ≠ slash)) := by
  have ht : rest.takeWhile (· ≠ slash) ≠ [] := by
    cases rest with
    | nil => exact absurd rfl hn
    | cons c rest => simp [hr c rfl]
  refine ⟨ht, ?_⟩
  rw [← components_append (fun h => by simpa using mem_takeWhile_imp h) ht,
    takeWhile_append_dropWhile]
  intro c hc
  simpa using eq_false_of_head?_dropWhile hc

/-! ## Counting -/

/-- The loop of `count_levels`, at most so many rounds. -/
def countLevelsFrom : ℕ → List UInt8 → ℕ
  | 0, _ => 0
  | fuel + 1, path =>
    if path = [] then 0
    else countLevelsFrom fuel ((path.dropWhile (· ≠ slash)).dropWhile (· = slash)) + 1

/-- `count_levels(path)`. A round of the loop takes one character at least. -/
def countLevels (path : List UInt8) : ℕ := countLevelsFrom path.length (path.dropWhile (· = slash))

theorem countLevelsFrom_eq {fuel : ℕ} (hf : rest.length ≤ fuel)
    (hr : ∀ c ∈ rest.head?, c ≠ slash) :
    countLevelsFrom fuel rest = (components rest).length := by
  induction fuel generalizing rest with
  | zero =>
    obtain rfl := length_eq_zero_iff.mp (Nat.le_zero.mp hf)
    rfl
  | succ fuel ih =>
    rw [countLevelsFrom]
    split_ifs with hn
    · rw [hn]
      rfl
    obtain ⟨ht, he⟩ := components_eq hr hn
    have hl := congrArg length (takeWhile_append_dropWhile (p := (· ≠ slash)) (l := rest))
    have hp := length_pos_iff.mpr ht
    have hle := (dropWhile_sublist (· = slash) (l := rest.dropWhile (· ≠ slash))).length_le
    rw [length_append] at hl
    rw [ih (by omega) ne_slash_of_mem_head?, components_dropWhile, he, length_cons]

/-- `count_levels` counts the components. -/
theorem countLevels_eq (path : List UInt8) : countLevels path = (components path).length := by
  rw [countLevels, countLevelsFrom_eq (dropWhile_sublist _).length_le ne_slash_of_mem_head?,
    components_dropWhile]

/-! ## Walking -/

theorem drop_takeWhile (p : UInt8 → Bool) (path : List UInt8) :
    path.drop (path.takeWhile p).length = path.dropWhile p := by
  have h : (path.takeWhile p ++ path.dropWhile p).drop (path.takeWhile p).length = _ := drop_left
  rwa [takeWhile_append_dropWhile] at h

/-- The components that are left for a walker, up to the first one that is too long. -/
def Walker.left (w : Walker) : List (List UInt8) :=
  if w.tooLong then [] else (components w.rest).takeWhile (·.length < maxFilenameLen)

/-- **`Walker::next`** returns the next component, and nothing once there is none left. -/
theorem Walker.next_spec (w : Walker) :
    w.next.1 = w.left.head? ∧ w.next.2.left = w.left.tail ∧
      (w.next.2.tooLong ↔ w.tooLong ∨ w.left = [] ∧ components w.rest ≠ []) ∧
      (¬ w.next.2.tooLong → components w.next.2.rest = (components w.rest).tail) := by
  rw [next, left]
  by_cases ht : w.tooLong
  · simp [ht, left]
  by_cases hr : w.rest = []
  · simp [hr, ht, left]
  simp only [hr, ht, or_self, if_false, Bool.false_eq_true]
  rw [← components_dropWhile w.rest]
  generalize hp : w.rest.dropWhile (· = slash) = rest
  have hh : ∀ c ∈ rest.head?, c ≠ slash := hp ▸ ne_slash_of_mem_head?
  by_cases hn : rest = []
  · simp [hn, left, maxFilenameLen]
  obtain ⟨ha, he⟩ := components_eq hh hn
  rw [he, drop_takeWhile]
  generalize rest.takeWhile (· ≠ slash) = piece at ha ⊢
  by_cases hl : maxFilenameLen ≤ piece.length
  · simp [left, hl]
  · simp [left, hl, ha, not_le.mp hl]

theorem Walker.rest_next_sublist (w : Walker) : w.next.2.rest <+ w.rest := by
  have hd : w.rest.dropWhile (· = slash) <+ w.rest := dropWhile_sublist _
  rw [next]
  dsimp only
  split_ifs
  · exact Sublist.refl _
  · exact (drop_sublist _ _).trans hd
  · exact hd
  · exact (drop_sublist _ _).trans hd

theorem Walker.piecesWithin_eq (w : Walker) (fuel : ℕ) :
    w.piecesWithin fuel = w.left.take fuel := by
  induction fuel generalizing w with
  | zero => rfl
  | succ fuel ih =>
    obtain ⟨hf, hl, -⟩ := w.next_spec
    rw [piecesWithin]
    generalize w.next = r at hf hl
    obtain ⟨piece, w'⟩ := r
    cases he : w.left with
    | nil =>
      obtain rfl : piece = none := by simpa [he] using hf
      rfl
    | cons first left =>
      obtain rfl : piece = some first := by simpa [he] using hf
      dsimp only at hl ⊢
      rw [ih, hl, he, tail_cons, take_succ_cons]

theorem countLevelsFrom_le (fuel : ℕ) (path : List UInt8) : countLevelsFrom fuel path ≤ fuel := by
  induction fuel generalizing path with
  | zero => exact le_rfl
  | succ fuel ih =>
    rw [countLevelsFrom]
    split_ifs
    · exact Nat.zero_le _
    · exact Nat.succ_le_succ (ih _)

theorem pieces_eq (path : List UInt8) :
    pieces path = (components path).takeWhile (·.length < maxFilenameLen) := by
  rw [pieces, Walker.piecesWithin_eq, Walker.left, if_neg Bool.false_ne_true, take_of_length_le]
  calc _ ≤ (components path).length := (takeWhile_sublist _).length_le
    _ = countLevels path := (countLevels_eq path).symm
    _ ≤ path.length + 1 := (countLevelsFrom_le _ _).trans (Nat.le_succ _)

/-! ## Validity -/

/-- `check_length(path)`. -/
def checkLength (path : List UInt8) : Bool := path.length + 1 < maxPathLen

/-- The loops of `is_valid` over the rest of the path, with `chars_this_piece`. -/
def isValidFrom : ℕ → List UInt8 → Bool
  | _, [] => true
  | chars, c :: rest =>
    if c = slash then isValidFrom chars rest
    else if maxFilenameLen - 1 ≤ chars then false
    else isValidFrom (chars + 1) rest

/-- `is_valid(path)`. -/
def isValid (path : List UInt8) : Bool :=
  checkLength path && path.head? = some slash && isValidFrom 0 path.tail

/-- What a valid path is: it is absolute, and neither it nor one of its components is too long. -/
def Valid (path : List UInt8) : Prop :=
  path.length + 1 < maxPathLen ∧ path.head? = some slash ∧
    ∀ piece ∈ components path, piece.length < maxFilenameLen
deriving Decidable

-- `chars_this_piece` is not reset between the pieces
theorem isValidFrom_iff (chars : ℕ) (path : List UInt8) (hl : chars < maxFilenameLen) :
    isValidFrom chars path ↔ chars + path.countP (· ≠ slash) < maxFilenameLen := by
  induction path generalizing chars with
  | nil => simpa [isValidFrom] using hl
  | cons c rest ih =>
    rw [isValidFrom]
    split_ifs with hc hf
    · simpa [hc] using ih chars hl
    · simp [hc]; omega
    · simpa [hc, Nat.add_assoc, Nat.add_comm] using ih (chars + 1) (by omega)

theorem isValid_iff (path : List UInt8) :
    isValid path ↔ path.length + 1 < maxPathLen ∧ path.head? = some slash ∧
      path.countP (· ≠ slash) < maxFilenameLen := by
  cases path with
  | nil => simp [isValid]
  | cons c rest =>
    simp only [isValid, checkLength, Bool.and_eq_true, decide_eq_true_iff, and_assoc]
    refine and_congr_right fun _ => and_congr_right fun hc => ?_
    obtain rfl : c = slash := Option.some.inj hc
    simpa using isValidFrom_iff 0 rest (by decide)

theorem flatten_splitOn (path : List UInt8) :
    (path.splitOn slash).flatten = path.filter (· ≠ slash) := by
  induction path with
  | nil => rfl
  | cons c path ih =>
    rw [splitOn] at ih ⊢
    rw [splitOnP_cons_eq_if_modifyHead]
    cases hs : path.splitOnP (· == slash) with
    | nil => exact absurd hs (splitOnP_ne_nil _ _)
    | cons piece rest =>
      rw [hs] at ih
      by_cases hc : c = slash
      · simpa [hc] using ih
      · simpa [hc] using ih

theorem length_le_countP (h : piece ∈ components path) :
    piece.length ≤ path.countP (· ≠ slash) := by
  rw [countP_eq_length_filter, ← flatten_splitOn]
  exact (sublist_flatten_of_mem (mem_of_mem_filter h)).length_le

/-- **Path validity**: `is_valid` counts the characters of all the components together, and the
pieces of a walker tell which absolute paths of acceptable length are valid. -/
theorem isValid_iff_valid (path : List UInt8) :
    ((isValid path ↔ Valid path) ↔ (Valid path → path.countP (· ≠ slash) < maxFilenameLen)) ∧
      (Valid path ↔ path.length + 1 < maxPathLen ∧ path.head? = some slash ∧
        (pieces path).length = countLevels path) := by
  constructor
  · constructor
    · intro hiff hva
      exact ((isValid_iff path).mp (hiff.mpr hva)).2.2
    intro hcount
    constructor
    · intro his
      obtain ⟨hlen, hhe, hlt⟩ := (isValid_iff path).mp his
      exact ⟨hlen, hhe, fun piece hp => (length_le_countP hp).trans_lt hlt⟩
    intro hva
    exact (isValid_iff path).mpr ⟨hva.1, hva.2.1, hcount hva⟩
  · refine and_congr_right fun _ => and_congr_right fun _ => ?_
    rw [countLevels_eq, pieces_eq]
    -- the walker stops at no component exactly when each one fits
    calc _ ↔ (components path).takeWhile (·.length < maxFilenameLen) = components path := by simp
      _ ↔ _ := ⟨congrArg length, ( takeWhile_prefix _).eq_of_length⟩

theorem not_isValid :
    let path := slash :: replicate 128 97 ++ slash :: replicate 128 97
    Valid path ∧ ¬ isValid path := by
  decide +kernel

/-! ## The members of a walker -/

/-- `Walker` with all of its members. -/
structure PathWalker extends Walker where
  /-- `m_buffer`. -/
  buffer : List UInt8
  level : ℕ := 0
  levels : ℕ

namespace PathWalker

/-- The loop of `next` over the characters of a piece. -/
def copyPiece : ℕ → List UInt8 → List UInt8 → Except Fault (Option ℕ × List UInt8 × List UInt8)
  | chars, [], buffer => .ok (some chars, [], buffer)
  | chars, c :: rest, buffer =>
    if c = slash then .ok (some chars, c :: rest, buffer)
    else if maxFilenameLen - 1 ≤ chars then .ok (none, c :: rest, buffer)
    else do copyPiece (chars + 1) rest (← store buffer chars c)

/-- `Walker::Walker(path)`, with what the memory of `m_buffer` held before. -/
def new (path : CString) (buffer : List.Vector UInt8 maxFilenameLen) : PathWalker :=
  { rest := path.bytes, buffer := buffer.1, levels := countLevels path.bytes }

/-- `Walker::next()`, and the string that it returns. -/
def next (w : PathWalker) : Except Fault (Option (List UInt8) × PathWalker) :=
  if w.rest = [] ∨ w.tooLong then .ok (none, w)
  else do
    let (chars, rest, buffer) ← copyPiece 0 (w.rest.dropWhile (· = slash)) w.buffer
    match chars with
    | none => return (none, { w with rest, buffer, tooLong := true })
    | some 0 => return (none, { w with rest, buffer, tooLong := false })
    | some chars =>
      let buffer ← store buffer chars 0
      return (some (cstring buffer),
        { w with rest, buffer, tooLong := false, level := w.level + 1 })

/-- `Walker::isFinal()`. -/
def isFinal (w : PathWalker) : Bool := w.level = w.levels

/-- What so many calls of `next` return, and the walker after them. -/
def calls : ℕ → PathWalker → Except Fault (List (Option (List UInt8)) × PathWalker)
  | 0, w => .ok ([], w)
  | k + 1, w => do
    let (piece, w) ← w.next
    let (pieces, w) ← calls k w
    return (piece :: pieces, w)

/-- The loop keeps to the buffer, and leaves the piece in it unless it is too long. -/
theorem copyPiece_spec (hbuffer : buffer.length = maxFilenameLen) (hf : front <+: buffer)
    (hl : front.length < maxFilenameLen) :
    Succeeds (copyPiece front.length rest buffer) fun r => r.2.2.length = maxFilenameLen ∧
      if maxFilenameLen ≤ front.length + (rest.takeWhile (· ≠ slash)).length then
        r.1 = none ∧ r.2.1 = rest.drop (maxFilenameLen - 1 - front.length)
      else r.1 = some (front.length + (rest.takeWhile (· ≠ slash)).length) ∧
        r.2.1 = rest.dropWhile (· ≠ slash) ∧ front ++ rest.takeWhile (· ≠ slash) <+: r.2.2 := by
  induction rest generalizing buffer front with
  | nil =>
    rw [copyPiece]
    exact .ok (by simp [hbuffer, hf, not_le.mpr hl])
  | cons c rest ih =>
    rw [copyPiece]
    refine .ite (fun hc => ?_) fun hc => .ite (fun hu => ?_) fun hu => ?_
    · exact .ok (by simp [hbuffer, hf, hc, not_le.mpr hl])
    · refine .ok ⟨hbuffer, ?_⟩
      simp only [hc, takeWhile_cons, ne_eq, not_false_eq_true, decide_true, if_true, length_cons]
      rw [if_pos (by omega), Nat.sub_eq_zero_of_le hu, drop_zero]
      exact ⟨trivial, rfl⟩
    -- the character goes behind those that stand in the buffer already
    have hs : front ++ [c] <+: buffer.set front.length c := by
      obtain ⟨back, rfl⟩ := hf
      cases back with
      | nil => simp at hbuffer; omega
      | cons b back => simp
    have hi := ih (by simpa) hs (by simp; omega)
    rw [store, if_pos (by omega), ok_bind]
    rw [length_append, length_singleton] at hi
    refine hi.mono fun r hr => ?_
    simp only [hc, takeWhile_cons, dropWhile_cons, ne_eq, not_false_eq_true, decide_true, if_true,
      length_cons]
    rw [append_assoc, singleton_append] at hr
    rw [← Nat.sub_sub] at hr
    rw [← Nat.sub_add_cancel (by omega : 1 ≤ maxFilenameLen - 1 - front.length), drop_succ_cons,
      ← Nat.add_assoc, Nat.add_right_comm]
    exact hr

theorem cstring_set (hn : 0 ∉ piece) (hp : piece <+: buffer)
    (hl : piece.length < buffer.length) : cstring (buffer.set piece.length 0) = piece := by
  obtain ⟨back, rfl⟩ := hp
  cases back with
  | nil => simp at hl
  | cons b back => simpa using cstring_append ⟨piece, hn⟩ back

variable {w : PathWalker}

/-- **`Walker::next`** does what the walker without the other members does. -/
theorem next_eq (hbuffer : w.buffer.length = maxFilenameLen) (hu : 0 ∉ w.rest) :
    Succeeds w.next fun r => r.1 = w.toWalker.next.1 ∧ r.2.toWalker = w.toWalker.next.2 ∧
      r.2.buffer.length = maxFilenameLen ∧ r.2.levels = w.levels ∧
      r.2.level = w.level + r.1.toList.length := by
  rw [next, Walker.next]
  refine .ite (fun hno => ?_) fun hno => ?_
  · rw [if_pos hno]
    exact .ok ⟨rfl, rfl, hbuffer, rfl, rfl⟩
  refine (copyPiece_spec hbuffer nil_prefix (by simp [maxFilenameLen])).bind fun r hr => ?_
  obtain ⟨chars, rest, buffer⟩ := r
  obtain ⟨hl, hr⟩ := hr
  rw [if_neg hno]
  dsimp only at hl hr ⊢
  rw [length_nil, Nat.zero_add, nil_append, Nat.sub_zero] at hr
  have hn : 0 ∉ (w.rest.dropWhile (· = slash)).takeWhile (· ≠ slash) := fun h =>
    hu ((dropWhile_sublist _).mem ((takeWhile_sublist _).mem h))
  rw [drop_takeWhile]
  have ha := takeWhile_append_dropWhile (p := (· ≠ slash)) (l := w.rest.dropWhile (· = slash))
  generalize (w.rest.dropWhile (· = slash)).takeWhile (· ≠ slash) = piece at hr hn ha ⊢
  by_cases ho : maxFilenameLen ≤ piece.length
  · rw [if_pos ho] at hr ⊢
    obtain ⟨rfl, rfl⟩ := hr
    exact .ok ⟨rfl, rfl, hl, rfl, rfl⟩
  rw [if_neg ho] at hr ⊢
  obtain ⟨rfl, rfl, hp⟩ := hr
  cases piece with
  | nil =>
    rw [nil_append] at ha
    rw [ha]
    exact .ok ⟨rfl, rfl, hl, rfl, rfl⟩
  | cons c piece =>
    have ht : (c :: piece).length < buffer.length := hl.symm ▸ not_le.mp ho
    change Succeeds (store buffer (c :: piece).length 0 >>= _) _
    rw [store, if_pos ht, ok_bind]
    exact .ok ⟨congrArg some (cstring_set hn hp ht), rfl, by simpa using hl, rfl, rfl⟩

/-- What calls of `next` return, and when they come to a component that is too long. -/
theorem calls_eq (k : ℕ) (hbuffer : w.buffer.length = maxFilenameLen) (hu : 0 ∉ w.rest) :
    Succeeds (w.calls k) fun r => r.1 = (range k).map (w.left[·]?) ∧
      r.2.level = w.level + min k w.left.length ∧ r.2.levels = w.levels ∧
      (r.2.tooLong ↔ w.tooLong ∨ w.left.length < k ∧ w.left ≠ components w.rest) := by
  induction k generalizing w with
  | zero => exact .ok (by simp)
  | succ k ih =>
    refine (next_eq hbuffer hu).bind fun r hr => ?_
    obtain ⟨piece, w'⟩ := r
    dsimp only at hr ⊢
    obtain ⟨hi, hw, hbu, hlevels, he⟩ := hr
    obtain ⟨hh, ha, hto, hc⟩ := w.toWalker.next_spec
    have hs := w.toWalker.rest_next_sublist
    rw [← hw] at ha hto hc hs
    rw [← hi] at hh
    refine (ih hbu fun h => hu (hs.mem h)).bind fun r hr => ?_
    obtain ⟨more, w2⟩ := r
    dsimp only at hr
    obtain ⟨rfl, hl, hls, ht⟩ := hr
    rw [ha] at hl ht ⊢
    refine .ok ⟨?_, ?_, hls.trans hlevels, ht.trans ?_⟩
    · simp [hh, range_succ_eq_map, head?_eq_getElem?]
    · rw [hl, he, hh]
      cases w.left <;> simp; omega
    by_cases ho : w'.tooLong
    · obtain ho | ⟨hno, hne⟩ := hto.mp ho <;> simp_all [Ne.symm]
    have hp : w.left <+: components w.rest := by
      rw [Walker.left]
      split_ifs
      · exact nil_prefix
      · exact takeWhile_prefix _
    obtain ⟨back, hb⟩ := hp
    have hn := hto.not.mp ho
    rw [← hb] at hn
    rw [hc ho, ← hb]
    generalize w.left = left at hn ⊢
    cases left <;> simp at hn <;> simp [ho, hn]

/-- **Path walking**: the calls of `next` return the components in order, up to the first one that
is too long. -/
theorem calls_spec (path : CString) (buffer : List.Vector UInt8 maxFilenameLen) (k : ℕ) :
    let walked := (components path.bytes).takeWhile (·.length < maxFilenameLen)
    ∃ w, (new path buffer).calls k = .ok ((range k).map (walked[·]?), w) ∧
      w.level = min k walked.length ∧
      (w.isFinal ↔ walked.take k = components path.bytes) ∧
      (w.tooLong ↔ walked.length < k ∧ walked ≠ components path.bytes) := by
  intro walked
  have hwa : (new path buffer).left = walked := if_neg Bool.false_ne_true
  obtain ⟨r, hca, hre, hle, hls, hto⟩ :=
    (calls_eq (w := new path buffer) k buffer.2 path.nul).exists_ok
  rw [hwa] at hre hle hto
  have hlev : r.2.level = min k walked.length := hle.trans (Nat.zero_add _)
  refine ⟨r.2, by rw [hca, ← hre], hlev, ?_, hto.trans (or_iff_right Bool.false_ne_true)⟩
  have hpre : walked.take k <+: components path.bytes :=
    ( take_prefix _ _).trans ( takeWhile_prefix _)
  have hfinal : r.2.isFinal ↔ (walked.take k).length = (components path.bytes).length := by
    rw [isFinal, decide_eq_true_iff, hlev, hls, length_take, ← countLevels_eq]
    rfl
  exact hfinal.trans ⟨hpre.eq_of_length, congrArg length⟩

end PathWalker

end AexKernel.Fs
