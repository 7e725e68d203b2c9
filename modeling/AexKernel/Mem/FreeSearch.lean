import AexKernel.Mem.PageTree

/-! # Searching for free pages

`findContiguous` returns the first run of free pages that is long enough. -/

namespace AexKernel.Mem

open Library BitVec Machine

variable {view : View} {s : Machine} {root : Frame}

theorem pageOf_eq (v : BitVec 64) : pageOf v = page (v.toNat / 4096) := by
  rw [← toNat_inj, pageOf, extractLsb'_toNat, Nat.shiftRight_eq_div_pow, toNat_ofNat]

theorem toNat_ptIndex (v : BitVec 64) : (ptIndex v).toNat = v.toNat / 4096 % 512 := by
  rw [ptIndex, extractLsb'_toNat, Nat.shiftRight_eq_div_pow]

/-- Where the loop of `findContiguous` stands. -/
structure Searching (view : View) (s : Machine) (root : Frame) (base : ℕ) (amount first j : ℕ)
    (vaddr : BitVec 64) (index combo : ℕ) (start : BitVec 64) (tb : Frame) : Prop where
  here : vaddr.toNat = base + 4096 * j
  begun : start.toNat = base + 4096 * first
  found : first + combo = j
  short : combo < amount
  table : index < 512 → index = (ptIndex vaddr).toNat ∧
    view.tableAt s root (tablePath (pageOf vaddr)) = some tb
  edge : ¬ index < 512 → index = 512 ∧ vaddr.toNat / 4096 % 512 = 0

def FreePage (view : View) (s : Machine) (root : Frame) (base j : ℕ) : Prop :=
  view.entryAt s root (page (base / 4096 + j)) = 0

variable {base amount first j : ℕ} {vaddr : BitVec 64} {index combo : ℕ} {start : BitVec 64}
  {tb : Frame}

theorem page_of_here (hb : base % 4096 = 0) (h : vaddr.toNat = base + 4096 * j) :
    pageOf vaddr = page (base / 4096 + j) := by
  rw [pageOf_eq, h]
  congr 1
  omega

theorem toNat_add_pages (n : ℕ) (h : vaddr.toNat = base + 4096 * j)
    (hl : base + 4096 * (j + n) < 2 ^ 64) :
    (vaddr + BitVec.ofNat 64 (4096 * n)).toNat = base + 4096 * (j + n) := by
  rw [toNat_add, toNat_ofNat, h]
  omega

section

variable (h : Searching view s root base amount first j vaddr index combo start tb)
include h

theorem Searching.entry (hb : base % 4096 = 0) (hi : index < 512) :
    s.mem tb (BitVec.ofNat 9 index) = view.entryAt s root (page (base / 4096 + j)) := by
  obtain ⟨hs, ht⟩ := h.table hi
  rw [hs, ofNat_toNat, setWidth_eq, ptIndex_eq, ← page_of_here hb h.here, View.entryAt, ht]
  rfl

theorem Searching.next (hl : base + 4096 * (j + 1) < 2 ^ 64) (hb : base % 4096 = 0)
    (hi : index < 512) {first' combo' : ℕ} {start' : BitVec 64}
    (ht : start'.toNat = base + 4096 * first') (hc : first' + combo' = j + 1)
    (hh : combo' < amount) :
    Searching view s root base amount first' (j + 1) (vaddr + 4096#64) (index + 1) combo' start' tb where
  here := toNat_add_pages 1 h.here hl
  begun := ht
  found := hc
  short := hh
  table hi' := by
    have hn : (vaddr + 4096#64).toNat = base + 4096 * (j + 1) := toNat_add_pages 1 h.here hl
    obtain ⟨hs, ha⟩ := h.table hi
    rw [toNat_ptIndex, h.here] at hs
    refine ⟨by rw [toNat_ptIndex, hn]; omega, ?_⟩
    rw [page_of_here hb hn, tablePath_page (M := base / 4096 + j) (by omega),
      ← page_of_here hb h.here]
    exact ha
  edge hi' := by
    have hn : (vaddr + 4096#64).toNat = base + 4096 * (j + 1) := toNat_add_pages 1 h.here hl
    obtain ⟨hs, -⟩ := h.table hi
    rw [toNat_ptIndex, h.here] at hs
    exact ⟨by omega, by rw [hn]; omega⟩

end

/-- **The search ends** at a run of free pages or before it. -/
theorem Searching.loop (hu : ∀ i, view.scope i) {vend : BitVec 64} {R fuel : ℕ}
    (h : Searching view s root base amount first j vaddr index combo start tb)
    (hb : base % 4096 = 0)
    (hr : ∀ i, R ≤ i → i < R + amount → FreePage view s root base i)
    (hd : base + 4096 * (R + amount) ≤ vend.toNat) (hf : first ≤ R)
    (hfu : R + amount - j < fuel) :
    ∃ v first', findContiguousLoop s.mem root vend amount fuel vaddr index combo start tb =
      .ok v ∧ v.toNat = base + 4096 * first' ∧ first' ≤ R := by
  induction fuel generalizing first j vaddr index combo start tb with
  | zero => omega
  | succ fuel ih =>
    have hfo := h.found
    have hh := h.short
    have hl : vaddr < vend := by
      rw [lt_def, h.here]
      omega
    rw [findContiguousLoop, if_pos hl]
    -- a page whose table is known: it is used, it completes the run, or the run goes on
    have hp : ∀ (index : ℕ) (tb : Frame),
        Searching view s root base amount first j vaddr index combo start tb → index < 512 →
        ∃ v first', (if s.mem tb (BitVec.ofNat 9 index) ≠ 0 then
            findContiguousLoop s.mem root vend amount fuel (vaddr + 4096#64) (index + 1) 0
              (vaddr + 4096#64) tb
          else if amount ≤ combo + 1 then .ok start
          else findContiguousLoop s.mem root vend amount fuel (vaddr + 4096#64) (index + 1)
            (combo + 1) start tb) = .ok v ∧ v.toNat = base + 4096 * first' ∧ first' ≤ R := by
      intro index tb h hi
      have hn : (vaddr + 4096#64).toNat = base + 4096 * (j + 1) :=
        toNat_add_pages 1 h.here (by omega)
      split_ifs with hs ho
      · have hbe : j < R := by
          by_contra hg
          refine hs ?_
          rw [h.entry hb hi]
          exact hr j (by omega) (by omega)
        exact ih (h.next (by omega) hb hi hn (Nat.add_zero _) (by omega)) (by omega) (by omega)
      · exact ⟨start, first, rfl, h.begun, hf⟩
      · exact ih (h.next (by omega) hb hi h.begun (by omega) (by omega)) hf (by omega)
    by_cases hi : index < 512
    · rw [if_pos hi]
      exact hp index tb h hi
    obtain ⟨rfl, he⟩ := h.edge hi
    rw [if_neg hi, findTable_toOption view s root (hu _)]
    cases ht : view.tableAt s root (tablePath (pageOf vaddr)) with
    | some table =>
      have hsl : (ptIndex vaddr).toNat = 0 := by rw [toNat_ptIndex, he]
      exact hp 0 table ⟨h.here, h.begun, h.found, h.short,
        fun _ => ⟨hsl.symm, ht⟩, fun h => absurd (by decide) h⟩ (by decide)
    | none =>
      rw [Option.map_none]
      dsimp only
      split_ifs with ho
      · exact ⟨start, first, rfl, h.begun, hf⟩
      have hn : (vaddr + 0x200000#64).toNat = base + 4096 * (j + 512) :=
        toNat_add_pages 512 h.here (by omega)
      refine ih ⟨hn, h.begun, by omega, by omega, fun h => absurd h (by decide), fun _ => ?_⟩
        hf (by omega)
      refine ⟨rfl, ?_⟩
      rw [hn]
      rw [h.here] at he
      omega

/-- **`findContiguous`**. -/
theorem Machine.findContiguous_spec (hu : ∀ i, view.scope i) {roots : Set Frame} {map : Pagemap}
    {exec : Bool} {R : ℕ} {s1 : Machine} (hp : 0 < amount)
    (hb : (searchStart map exec).toNat % 4096 = 0)
    (hn : (searchStart map exec).toNat + 4096 * (R + amount) ≤ map.vend.toNat)
    (hfr : ∀ i, R ≤ i → i < R + amount →
      FreePage view s map.pageRoot (searchStart map exec).toNat i)
    (htr : Tree view s roots) (hr : map.pageRoot ∈ roots)
    (ht : s.searchTable map.pageRoot (searchStart map exec) = .ok (tb, s1)) :
    ∃ v first, s.findContiguous map amount exec = .ok (v, s1) ∧
      v.toNat = (searchStart map exec).toNat + 4096 * first ∧ first ≤ R := by
  have he : ∀ n, view.entryAt s1 map.pageRoot n = view.entryAt s map.pageRoot n ∧
      view.tableAt s1 map.pageRoot (tablePath (pageOf (searchStart map exec))) =
        some tb := by
    intro n
    rw [searchTable] at ht
    cases hf : findTable s.mem map.pageRoot (searchStart map exec) with
    | ok t =>
      rw [hf] at ht
      cases ht
      have hop := findTable_toOption view s map.pageRoot (v := searchStart map exec) (hu _)
      rw [hf] at hop
      exact ⟨rfl, hop.symm⟩
    | error skip =>
      rw [hf] at ht
      have hen := findTableEnsure_spec htr hr (hu _) ht
      exact ⟨hen.grown.entries _ hr n, hen.table⟩
  have hs : Searching view s1 map.pageRoot (searchStart map exec).toNat amount 0 0
      (searchStart map exec) (ptIndex (searchStart map exec)).toNat 0
      (searchStart map exec) tb :=
    ⟨rfl, rfl, rfl, hp, fun _ => ⟨rfl, (he 0).2⟩,
      fun h => absurd (ptIndex (searchStart map exec)).isLt h⟩
  obtain ⟨v, first, hl, hv, hfi⟩ := hs.loop hu (R := R) hb
    (fun i hi hi' => ((he _).1).trans (hfr i hi hi')) hn (Nat.zero_le R)
    (show R + amount - 0 < 2 ^ 53 by omega)
  refine ⟨v, first, ?_, hv, hfi⟩
  rw [findContiguous, if_neg (Nat.ne_of_gt hp)]
  simp only [ht, ok_bind, hl, pure_eq_ok]

end AexKernel.Mem
