import AexKernel.Basic
import AexKernel.Library.CheckedList
import AexKernel.Library.Run

/-! # Terminal output (`dev/tty/abstractor.cpp`, `arch/x86_64/dev/tty/txtty.cpp`)

Bytes pass the escape parser of `Abstractor` and reach the text screen of `TxTTY`. -/

namespace AexKernel.Dev

open Library List

/-! ## The screen -/

/-- The size of a screen. -/
structure Screen where
  width : ℤ
  height : ℤ
  width_pos : 0 < width
  height_pos : 0 < height

/-- `TxTTY::vga_char`. -/
structure VgaChar where
  ascii : BitVec 8
  fg : ℕ
  bg : ℕ
  deriving DecidableEq, Repr

/-- `TxTTY`. -/
structure TxTTY where
  cursorx : ℤ := 0
  cursory : ℤ := 0
  bg : ℕ := 0
  fg : ℕ := 15
  output : List VgaChar
  deriving DecidableEq, Repr

namespace TxTTY

/-- `ansi_to_vga`. -/
def ansiToVga : List ℕ := [0, 4, 2, 6, 1, 5, 3, 7, 8, 12, 10, 14, 9, 13, 11, 15]

/-- `TxTTY::color`. -/
def color (t : TxTTY) (ansi : ℤ) : TxTTY :=
  if 30 ≤ ansi ∧ ansi ≤ 37 then { t with fg := ansiToVga.getD (ansi - 30).toNat 0 }
  else if 40 ≤ ansi ∧ ansi ≤ 47 then { t with bg := ansiToVga.getD (ansi - 40).toNat 0 }
  else if 90 ≤ ansi ∧ ansi ≤ 97 then { t with fg := ansiToVga.getD (ansi - 90 + 8).toNat 0 }
  else if 100 ≤ ansi ∧ ansi ≤ 107 then { t with bg := ansiToVga.getD (ansi - 100 + 8).toNat 0 }
  else t

/-- Stores to the cells from an index on, one after the other. -/
def storeCells (output : List VgaChar) (index : ℤ) : List VgaChar → Except Fault (List VgaChar)
  | [] => .ok output
  | cell :: rest => do
    let output ← storeAt .outOfBounds output index cell
    storeCells output (index + 1) rest

/-- `TxTTY::scroll(1)`: the rows move up, and the last one is filled with blanks. -/
def scroll (screen : Screen) (t : TxTTY) : Except Fault TxTTY := do
  let above := screen.width * (screen.height - 1)
  let output ← storeCells t.output 0 ((t.output.drop screen.width.toNat).take above.toNat)
  let output ← storeCells output above (List.replicate screen.width.toNat ⟨32, t.fg, t.bg⟩)
  return { t with output := output }

/-- The cursor moves on, and to the next row at the end of a row. -/
def advance (screen : Screen) (t : TxTTY) : TxTTY :=
  if screen.width ≤ t.cursorx + 1 then { t with cursorx := 0, cursory := t.cursory + 1 }
  else { t with cursorx := t.cursorx + 1 }

/-- `TxTTY::_write`, up to the check for the last row. -/
def writeCell (screen : Screen) (t : TxTTY) (c : BitVec 8) : Except Fault TxTTY :=
  if c = 0x0A then .ok { t with cursorx := 0, cursory := t.cursory + 1 }
  else if c = 0x0D then .ok { t with cursorx := 0 }
  else do
    let output ← storeAt .outOfBounds t.output (t.cursorx + t.cursory * screen.width) ⟨c, t.fg, t.bg⟩
    return advance screen { t with output := output }

/-- `TxTTY::_write`. -/
def write (screen : Screen) (t : TxTTY) (c : BitVec 8) : Except Fault TxTTY := do
  let t ← writeCell screen t c
  if screen.height ≤ t.cursory then scroll screen { t with cursory := t.cursory - 1 }
  else return t

end TxTTY

/-! ## The parser -/

/-- `Abstractor::state`. -/
inductive AnsiState
  | out
  | ansiCat
  | ansiArgs
  | ansiCode
  deriving DecidableEq, Repr

/-- `Abstractor`, with the terminal that it writes to. -/
structure Terminal where
  tty : TxTTY
  state : AnsiState
  arg : ℤ := 0
  ptr : ℤ := 0
  args : List ℤ
  cat : BitVec 8
  code : BitVec 8
  buffer : List (BitVec 8)
  deriving DecidableEq, Repr

namespace Terminal

/-- The loop of `stoi<int>(10, str)`. -/
def stoiLoop (res : ℤ) : List (BitVec 8) → Except Fault ℤ
  | [] => .error .outOfBounds
  | c :: rest => if c = 0 then .ok res else stoiLoop (toInt32 (res * 10 + c.toInt - 48)) rest

/-- `stoi<int>(10, str)`. -/
def stoi : List (BitVec 8) → Except Fault ℤ
  | [] => .error .outOfBounds
  | c :: rest =>
    if c = 0x2D then do
      let res ← stoiLoop 0 rest
      return toInt32 (-res)
    else stoiLoop 0 (c :: rest)

/-- `inrange(c, '0', '9')`. -/
def isDigit (c : BitVec 8) : Bool := 48 ≤ c.toNat ∧ c.toNat ≤ 57

/-- `inrange(c, ':', ';')`. -/
def isSeparator (c : BitVec 8) : Bool := 58 ≤ c.toNat ∧ c.toNat ≤ 59

/-- `memset(m_buffer, '\0', sizeof(m_buffer))`. -/
def cleared : List (BitVec 8) := List.replicate 32 0

/-- The sequences that `flush_ansi` knows. -/
def applyAnsi (t : Terminal) : Except Fault Terminal :=
  if t.cat = 0x5B then
    if t.code = 0x6D then do
      let ansi ← loadAt .outOfBounds t.args 0
      return { t with tty := t.tty.color ansi }
    else if t.code = 0x48 then do
      let x ← loadAt .outOfBounds t.args 0
      let y ← loadAt .outOfBounds t.args 1
      return { t with tty := { t.tty with cursorx := x, cursory := y } }
    else .ok t
  else .ok t

/-- `Abstractor::flush_ansi`. -/
def flushAnsi (t : Terminal) : Except Fault Terminal := do
  let t ← t.applyAnsi
  return { t with ptr := 0, arg := 0 }

def endArg (t : Terminal) : Except Fault Terminal := do
  let value ← stoi t.buffer
  let args ← storeAt .outOfBounds t.args t.arg value
  let arg := if t.arg + 1 = 8 then t.arg + 1 - 1 else t.arg + 1
  return { t with args := args, ptr := 0, arg := arg, buffer := cleared }

def digit (t : Terminal) (c : BitVec 8) : Except Fault Terminal := do
  let ptr := if t.ptr = 31 then t.ptr - 1 else t.ptr
  let buffer ← storeAt .outOfBounds t.buffer ptr c
  return { t with ptr := ptr + 1, buffer := buffer }

/-- `Abstractor::_write`. -/
def writeByte (screen : Screen) (t : Terminal) (c : BitVec 8) : Except Fault Terminal :=
  match t.state with
  | .out =>
    if c = 0x1B then .ok { t with state := .ansiCat }
    else do
      let tty ← t.tty.write screen c
      return { t with tty := tty }
  | .ansiCat => .ok { t with cat := c, state := .ansiArgs, buffer := cleared }
  | .ansiArgs =>
    if isDigit c then t.digit c
    else do
      let t ← t.endArg
      if isSeparator c then return t
      else flushAnsi { t with code := c, state := .out }
  | .ansiCode => .ok t

/-! ## Staying on the screen -/

/-- The cursor is on the screen, and the indices of the parser are in their arrays. -/
structure InRange (screen : Screen) (t : Terminal) : Prop where
  x_nonneg : 0 ≤ t.tty.cursorx
  x_lt : t.tty.cursorx < screen.width
  y_nonneg : 0 ≤ t.tty.cursory
  y_lt : t.tty.cursory < screen.height
  arg_nonneg : 0 ≤ t.arg
  arg_lt : t.arg < 8
  ptr_nonneg : 0 ≤ t.ptr
  ptr_lt : t.ptr < 32

/-- Where the sequence that is being read would put the cursor, if it ended here. -/
def target (t : Terminal) : Option (ℤ × ℤ) :=
  match stoi t.buffer with
  | .error _ => none
  | .ok value =>
    let args := t.args.set t.arg.toNat value
    some (args.getD 0 0, args.getD 1 0)

/-- A byte that ends a sequence `ESC [ x ; y H` finds numbers that are on the screen. -/
def PlacesOnScreen (screen : Screen) (t : Terminal) (c : BitVec 8) : Prop :=
  t.state = .ansiArgs ∧ t.cat = 0x5B ∧ c = 0x48 → ∀ p ∈ t.target,
    (0 ≤ p.1 ∧ p.1 < screen.width) ∧ 0 ≤ p.2 ∧ p.2 < screen.height
deriving Decidable

/-- A terminal in order. -/
structure Sound (screen : Screen) (t : Terminal) : Prop where
  inRange : t.InRange screen
  output : (t.tty.output.length : ℤ) = screen.width * screen.height
  args : t.args.length = 8
  buffer : t.buffer.length = 32
  terminated : t.state = .ansiArgs → t.buffer[31]? = some 0

end Terminal

/-! ## Writing to the screen -/

namespace TxTTY

variable {screen : Screen} {t : TxTTY}

/-- The cursor is on the screen, and the cells are there. -/
structure OnScreen (screen : Screen) (t : TxTTY) : Prop where
  x_nonneg : 0 ≤ t.cursorx
  x_lt : t.cursorx < screen.width
  y_nonneg : 0 ≤ t.cursory
  y_lt : t.cursory < screen.height
  output : (t.output.length : ℤ) = screen.width * screen.height

theorem storeCells_ok (output cs : List VgaChar) {i : ℤ} (h₀ : 0 ≤ i)
    (h : i + cs.length ≤ output.length) :
    ∃ output', storeCells output i cs = .ok output' ∧ output'.length = output.length := by
  induction cs generalizing output i with
  | nil => exact ⟨output, rfl, rfl⟩
  | cons cell rest ih =>
    rw [length_cons] at h
    push_cast at h
    obtain ⟨output', ho, hl⟩ := ih (output.set i.toNat cell)
      (show 0 ≤ i + 1 by omega) (by rw [length_set]; omega)
    refine ⟨output', ?_, hl.trans length_set⟩
    rw [storeCells, storeAt_eq h₀ (by omega), ok_bind, ho]

theorem scroll_ok (h : (t.output.length : ℤ) = screen.width * screen.height) :
    ∃ output, scroll screen t = .ok { t with output := output } ∧
      output.length = t.output.length := by
  have hw := screen.width_pos
  have ha : 0 ≤ screen.width * (screen.height - 1) :=
    mul_nonneg hw.le (by have := screen.height_pos; omega)
  have hr : screen.width * (screen.height - 1) + screen.width = screen.width * screen.height := by
    ring
  obtain ⟨output1, hout1, hlen1⟩ := storeCells_ok t.output
    ((t.output.drop screen.width.toNat).take (screen.width * (screen.height - 1)).toNat)
    (le_refl 0) (by rw [length_take, length_drop]; omega)
  obtain ⟨output2, hout2, hlen2⟩ := storeCells_ok output1
    (replicate screen.width.toNat ⟨32, t.fg, t.bg⟩) ha
    (by rw [length_replicate]; omega)
  refine ⟨output2, ?_, hlen2.trans hlen1⟩
  simp only [scroll, hout1, hout2, ok_bind, pure_eq_ok]

section

variable (h : OnScreen screen t)
include h

theorem OnScreen.index :
    0 ≤ t.cursorx + t.cursory * screen.width ∧
      t.cursorx + t.cursory * screen.width < t.output.length := by
  have hx := h.x_lt
  have hr : t.cursory * screen.width ≤ (screen.height - 1) * screen.width :=
    mul_le_mul_of_nonneg_right (by have := h.y_lt; omega) screen.width_pos.le
  have hl : (screen.height - 1) * screen.width = screen.width * screen.height - screen.width := by
    ring
  refine ⟨add_nonneg h.x_nonneg (mul_nonneg h.y_nonneg screen.width_pos.le), ?_⟩
  rw [h.output]
  omega

theorem OnScreen.writeCell (c : BitVec 8) :
    ∃ t', writeCell screen t c = .ok t' ∧ 0 ≤ t'.cursorx ∧ t'.cursorx < screen.width ∧
      0 ≤ t'.cursory ∧ t'.cursory ≤ screen.height ∧ t'.output.length = t.output.length := by
  have hx := h.x_nonneg
  have hy := h.y_nonneg
  have hl := h.y_lt
  have hw := screen.width_pos
  rw [TxTTY.writeCell]
  split_ifs with hn hr
  · exact ⟨_, rfl, le_rfl, hw, by dsimp only; omega, by dsimp only; omega, rfl⟩
  · exact ⟨_, rfl, le_rfl, hw, hy, hl.le, rfl⟩
  obtain ⟨hin₀, hi⟩ := h.index
  rw [storeAt_eq hin₀ hi, ok_bind, pure_eq_ok, advance]
  split_ifs with he
  · exact ⟨_, rfl, le_rfl, hw, by dsimp only; omega, by dsimp only; omega, length_set⟩
  · exact ⟨_, rfl, by dsimp only; omega, not_le.mp he, hy, hl.le, length_set⟩

/-- **`TxTTY::_write`** stores to the cells of the screen and leaves the cursor on it. -/
theorem OnScreen.write (c : BitVec 8) : ∃ t', write screen t c = .ok t' ∧ OnScreen screen t' := by
  obtain ⟨t1, ht1, hx, hxl, hy, hyl, hl⟩ := h.writeCell c
  have ho : (t1.output.length : ℤ) = screen.width * screen.height := by rw [hl, h.output]
  rw [TxTTY.write, ht1, ok_bind]
  split_ifs with ha
  · obtain ⟨output, hs, hu⟩ := scroll_ok (t := { t1 with cursory := t1.cursory - 1 }) ho
    have := screen.height_pos
    refine ⟨_, hs, hx, hxl, ?_, ?_, by dsimp only at hu ⊢; rw [hu, ho]⟩
    · dsimp only
      omega
    · dsimp only
      omega
  · exact ⟨t1, rfl, hx, hxl, hy, not_le.mp ha, ho⟩

theorem OnScreen.color (ansi : ℤ) : OnScreen screen (t.color ansi) := by
  rw [TxTTY.color]
  split_ifs <;> exact ⟨h.x_nonneg, h.x_lt, h.y_nonneg, h.y_lt, h.output⟩

end

end TxTTY

/-! ## Parsing -/

namespace Terminal

variable {screen : Screen} {t : Terminal}

theorem Sound.onScreen (h : Sound screen t) : t.tty.OnScreen screen :=
  ⟨h.inRange.x_nonneg, h.inRange.x_lt, h.inRange.y_nonneg, h.inRange.y_lt, h.output⟩

theorem Sound.of_onScreen (ht : t.tty.OnScreen screen) (hr : 0 ≤ t.arg ∧ t.arg < 8)
    (hp : 0 ≤ t.ptr ∧ t.ptr < 32) (ha : t.args.length = 8) (hb : t.buffer.length = 32)
    (he : t.state = .ansiArgs → t.buffer[31]? = some 0) : Sound screen t :=
  ⟨⟨ht.x_nonneg, ht.x_lt, ht.y_nonneg, ht.y_lt, hr.1, hr.2, hp.1, hp.2⟩, ht.output,
    ha, hb, he⟩

variable {str : List (BitVec 8)}

theorem stoiLoop_ok (h : 0 ∈ str) (res : ℤ) : ∃ value, stoiLoop res str = .ok value := by
  induction str generalizing res with
  | nil => cases h
  | cons c rest ih =>
    rw [stoiLoop]
    split_ifs with hc
    · exact ⟨res, rfl⟩
    · exact ih ((mem_cons.mp h).resolve_left (Ne.symm hc)) _

theorem stoi_ok (h : 0 ∈ str) : ∃ value, stoi str = .ok value := by
  cases str with
  | nil => cases h
  | cons c rest =>
    rw [stoi]
    split_ifs with hm
    · have hr : 0 ∈ rest := (mem_cons.mp h).resolve_left (by rw [hm]; decide)
      obtain ⟨res, he⟩ := stoiLoop_ok hr 0
      exact ⟨toInt32 (-res), by rw [he, ok_bind, pure_eq_ok]⟩
    · exact stoiLoop_ok h 0

theorem Sound.endArg (h : Sound screen t) (hs : t.state = .ansiArgs) :
    ∃ value arg, stoi t.buffer = .ok value ∧ 0 ≤ arg ∧ arg < 8 ∧
      t.endArg = .ok { t with args := t.args.set t.arg.toNat value, ptr := 0, arg := arg,
                              buffer := cleared } := by
  obtain ⟨value, hv⟩ := stoi_ok (mem_of_getElem? (h.terminated hs))
  have hr := h.inRange.arg_nonneg
  have hl := h.inRange.arg_lt
  have ha := h.args
  refine ⟨value, if t.arg + 1 = 8 then t.arg + 1 - 1 else t.arg + 1, hv, ?_, ?_, ?_⟩
  · split_ifs <;> omega
  · split_ifs <;> omega
  · rw [Terminal.endArg, hv, ok_bind, storeAt_eq hr (by omega), ok_bind, pure_eq_ok]

theorem Sound.digit (h : Sound screen t) (c : BitVec 8) (hs : t.state = .ansiArgs) :
    ∃ t', t.digit c = .ok t' ∧ Sound screen t' := by
  obtain ⟨ptr, hp⟩ : ∃ ptr, ptr = if t.ptr = 31 then t.ptr - 1 else t.ptr := ⟨_, rfl⟩
  have hb := h.buffer
  have hn := h.inRange.ptr_nonneg
  have hl := h.inRange.ptr_lt
  have hr : 0 ≤ ptr ∧ ptr < 31 := by
    rw [hp]
    split_ifs <;> omega
  refine ⟨{ t with ptr := ptr + 1, buffer := t.buffer.set ptr.toNat c }, ?_, ?_⟩
  · rw [Terminal.digit, ← hp, storeAt_eq hr.1 (by omega), ok_bind, pure_eq_ok]
  refine .of_onScreen h.onScreen ⟨h.inRange.arg_nonneg, h.inRange.arg_lt⟩ ?_ h.args
    (length_set.trans hb) fun _ => ?_
  · dsimp only
    omega
  -- the last byte of the buffer stays null
  dsimp only
  rw [getElem?_set_ne (by omega)]
  exact h.terminated hs

theorem loadAt_args {args : List ℤ} (h : args.length = 8) {i : ℕ} (hi : i < 8) :
    loadAt Fault.outOfBounds args i = .ok (args.getD i 0) := by
  rw [loadAt_natCast (by omega), getD_eq_getElem _ _ (by omega)]

theorem flushAnsi_of_ne (ha : t.args.length = 8) (ht : t.tty.OnScreen screen)
    (ho : ¬ (t.cat = 0x5B ∧ t.code = 0x48)) :
    ∃ tty, t.flushAnsi = .ok { t with tty := tty, ptr := 0, arg := 0 } ∧ tty.OnScreen screen := by
  rw [flushAnsi, applyAnsi]
  split_ifs with hc hco hu
  · have hl := loadAt_args ha (i := 0) (by decide)
    push_cast at hl
    exact ⟨_, by rw [hl, ok_bind, pure_eq_ok, ok_bind, pure_eq_ok], ht.color _⟩
  · exact absurd ⟨hc, hu⟩ ho
  · exact ⟨t.tty, rfl, ht⟩
  · exact ⟨t.tty, rfl, ht⟩

theorem flushAnsi_cursor (ha : t.args.length = 8) (hc : t.cat = 0x5B) (ho : t.code = 0x48) :
    t.flushAnsi = .ok { t with
      tty := { t.tty with cursorx := t.args.getD 0 0, cursory := t.args.getD 1 0 }
      ptr := 0
      arg := 0 } := by
  have hx := loadAt_args ha (i := 0) (by decide)
  have hy := loadAt_args ha (i := 1) (by decide)
  rw [flushAnsi, applyAnsi, if_pos hc, ho, if_neg (by decide), if_pos rfl]
  push_cast at hx hy
  rw [hx, ok_bind, hy, ok_bind, pure_eq_ok, ok_bind, pure_eq_ok]

theorem Sound.writeByte_cursor (h : Sound screen t) (hs : t.state = .ansiArgs)
    (hc : t.cat = 0x5B) :
    ∃ p args, t.target = some p ∧ args.length = 8 ∧ t.writeByte screen 0x48 = .ok { t with
      tty := { t.tty with cursorx := p.1, cursory := p.2 }
      state := .out
      arg := 0
      ptr := 0
      args := args
      code := 0x48
      buffer := cleared } := by
  obtain ⟨value, arg, hv, -, -, he⟩ := h.endArg hs
  have ha : (t.args.set t.arg.toNat value).length = 8 := length_set.trans h.args
  refine ⟨_, t.args.set t.arg.toNat value, by rw [target, hv], ha, ?_⟩
  rw [writeByte, hs]
  dsimp only
  rw [if_neg (by decide), he, ok_bind, if_neg (by decide)]
  exact flushAnsi_cursor (t := { t with
    args := t.args.set t.arg.toNat value, ptr := 0, arg := arg, buffer := cleared,
    code := 0x48, state := .out }) ha hc rfl

theorem Sound.writeByte (h : Sound screen t) {c : BitVec 8} (hl : PlacesOnScreen screen t c) :
    ∃ t', t.writeByte screen c = .ok t' ∧ Sound screen t' := by
  have hr := And.intro h.inRange.arg_nonneg h.inRange.arg_lt
  have ht := And.intro h.inRange.ptr_nonneg h.inRange.ptr_lt
  have hze8 : (0 : ℤ) ≤ 0 ∧ (0 : ℤ) < 8 := by decide
  have hze₃₂ : (0 : ℤ) ≤ 0 ∧ (0 : ℤ) < 32 := by decide
  by_cases hc : t.state = .ansiArgs ∧ t.cat = 0x5B ∧ c = 0x48
  · obtain ⟨hs, hca, rfl⟩ := hc
    obtain ⟨p, args, hp, ha, ht'⟩ := h.writeByte_cursor hs hca
    obtain ⟨⟨hx, hxl⟩, hy, hyl⟩ := hl ⟨hs, hca, rfl⟩ p hp
    exact ⟨_, ht', .of_onScreen ⟨hx, hxl, hy, hyl, h.output⟩ hze8 hze₃₂ ha
      length_replicate (nomatch ·)⟩
  cases hs : t.state with
  | out =>
    rw [Terminal.writeByte, hs]
    dsimp only
    split_ifs with hes
    · exact ⟨_, rfl, .of_onScreen h.onScreen hr ht h.args h.buffer (nomatch ·)⟩
    obtain ⟨tty, htt, ho⟩ := h.onScreen.write c
    rw [htt, ok_bind, pure_eq_ok]
    exact ⟨_, rfl, .of_onScreen ho hr ht h.args h.buffer (nomatch ·)⟩
  | ansiCat =>
    rw [Terminal.writeByte, hs]
    exact ⟨_, rfl, .of_onScreen h.onScreen hr ht h.args length_replicate fun _ => rfl⟩
  | ansiArgs =>
    rw [Terminal.writeByte, hs]
    dsimp only
    by_cases hd : isDigit c
    · rw [if_pos hd]
      exact h.digit c hs
    obtain ⟨value, arg, hv, har₀, hr, he⟩ := h.endArg hs
    have ha : (t.args.set t.arg.toNat value).length = 8 := length_set.trans h.args
    rw [if_neg hd, he, ok_bind]
    by_cases hse : isSeparator c
    · rw [if_pos hse, pure_eq_ok]
      exact ⟨_, rfl, .of_onScreen h.onScreen ⟨har₀, hr⟩ hze₃₂ ha length_replicate fun _ => rfl⟩
    rw [if_neg hse]
    obtain ⟨tty, hf, ho⟩ := flushAnsi_of_ne (t := { t with
      args := t.args.set t.arg.toNat value, ptr := 0, arg := arg, buffer := cleared,
      code := c, state := .out }) ha h.onScreen fun h' => hc ⟨hs, h'⟩
    exact ⟨_, hf, .of_onScreen ho hze8 hze₃₂ ha length_replicate (nomatch ·)⟩
  | ansiCode =>
    rw [Terminal.writeByte, hs]
    exact ⟨t, rfl, h⟩

/-- **Output stays on the screen** in every run in which no sequence puts the cursor off it: the
cursor and the indices of the parser are in range, and the next byte leaves them there exactly if it
puts the cursor on the screen. -/
theorem on_screen {t₀ : Terminal} (h₀ : Sound screen t₀)
    (run : Reach (Terminal.writeByte screen) (PlacesOnScreen screen) t₀ t) :
    t.InRange screen ∧ ∀ c, PlacesOnScreen screen t c ↔
      ∃ t', t.writeByte screen c = .ok t' ∧ t'.InRange screen := by
  have h : Sound screen t := by
    refine run.invariant (P := Sound screen) h₀ fun t c t' h hpl hste => ?_
    obtain ⟨u, hu, hso⟩ := h.writeByte hpl
    exact Except.ok.inj (hu.symm.trans hste) ▸ hso
  refine ⟨h.inRange, fun c => ⟨fun hpl => ?_, ?_⟩⟩
  · obtain ⟨t', ht', hso⟩ := h.writeByte hpl
    exact ⟨t', ht', hso.inRange⟩
  rintro ⟨t', ht', hr⟩ ⟨hst, hca, rfl⟩ p hp
  obtain ⟨q, args, hq, -, hu⟩ := h.writeByte_cursor hst hca
  obtain rfl := Except.ok.inj (hu.symm.trans ht')
  obtain rfl := Option.some.inj (hq.symm.trans hp)
  exact ⟨⟨hr.x_nonneg, hr.x_lt⟩, hr.y_nonneg, hr.y_lt⟩

def vga : Screen where
  width := 80
  height := 25
  width_pos := by decide
  height_pos := by decide

def twoRows : Screen where
  width := 2
  height := 2
  width_pos := by decide
  height_pos := by decide

def started (cells : ℕ) : Terminal where
  tty := { output := List.replicate cells ⟨0, 0, 0⟩ }
  state := .out
  args := List.replicate 8 0
  cat := 0
  code := 0
  buffer := cleared

theorem sound_started (screen : Screen) {cs : ℕ} (h : cs = screen.width * screen.height) :
    Sound screen (started cs) := by
  have hze8 : (0 : ℤ) ≤ 0 ∧ (0 : ℤ) < 8 := by decide
  have hze₃₂ : (0 : ℤ) ≤ 0 ∧ (0 : ℤ) < 32 := by decide
  have ho : ((started cs).tty.output.length : ℤ) = screen.width * screen.height :=
    (congrArg Nat.cast length_replicate).trans h
  exact .of_onScreen ⟨le_rfl, screen.width_pos, le_rfl, screen.height_pos, ho⟩ hze8 hze₃₂
    rfl rfl (nomatch ·)

theorem on_screen_lastCell :
    ∃ t, Reach (Terminal.writeByte twoRows) (PlacesOnScreen twoRows) (started 4) t ∧
      t.tty.cursorx = 0 ∧ t.tty.cursory = 1 ∧ t.InRange twoRows := by
  exact exists_reach_both [0x1B, 0x5B, 0x31, 0x3B, 0x31, 0x48, 0x41] (by decide)
    fun t run => (on_screen (sound_started twoRows rfl) run).1

theorem not_on_screen_cursor :
    ∃ t, Reach (Terminal.writeByte vga) (fun _ _ => True) (started 2000) t ∧ ¬ t.InRange vga ∧
      t.writeByte vga 0x41 = .error .outOfBounds := by
  obtain ⟨t, ht, hx, hwr⟩ : ∃ t ∈ execute (Terminal.writeByte vga) (fun _ _ => True) (started 2000)
      [0x1B, 0x5B, 0x39, 0x39, 0x3B, 0x39, 0x39, 0x48], t.tty.cursorx = 99 ∧
        t.writeByte vga 0x41 = .error .outOfBounds := by
    decide +kernel
  refine ⟨t, Reach.refl.execute ht, fun hr => ?_, hwr⟩
  have hlt := hr.x_lt
  rw [hx] at hlt
  exact absurd hlt (by decide)

end Terminal

end AexKernel.Dev
