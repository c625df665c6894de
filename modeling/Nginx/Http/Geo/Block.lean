import Nginx.Http.Geo.Delete

namespace Nginx.Geo

open IntervalList

variable {V : Type}

-- A line of a geo block with "ranges", whose addresses ngx_http_geo_range has read
inductive Directive (V : Type)
  | default (value : V)
  | range (line : Line V)
  | delete (start stop : ℕ) (ordered : start ≤ stop) (bounded : stop < 2 ^ 32)

-- ctx->high while the block is read
structure Conf (V : Type) where
  low : Option (Low V)
  defaultValue : Option V

-- ngx_http_geo_range
def geoRange (fuel : ℕ) (conf : Conf V) : Directive V → Option (Except Overlap (Conf V))
  | .default value => some (.ok { conf with defaultValue := some value })
  | .range line =>
      (addRange line fuel (conf.low.getD fun _ => none) line.start).map fun result =>
        result.map fun low => { conf with low := some low }
  | .delete start stop _ _ =>
      (deleteRange start stop fuel (conf.low.getD fun _ => none) start false).map fun (_, low, _) =>
        .ok { conf with low := some low }

-- The lines of a block that is accepted
inductive Parsed : List (Directive V) → Conf V → Prop
  | start : Parsed [] ⟨none, none⟩
  | line {ds : List (Directive V)} {conf conf' : Conf V} (d : Directive V) (fuel : ℕ) : Parsed ds conf →
      geoRange fuel conf d = some (.ok conf') → Parsed (ds ++ [d]) conf'

-- An entry of the table at the end: NULL, still the ngx_array_t of the temporary pool, or a copy of its elements and
-- what is put behind them, where none is NULL.
inductive Cells (V : Type)
  | null
  | array (a : List (Range V))
  | ranges (cells : List (Option (Range V)))

-- geo->u.high
structure High (V : Type) where
  low : ℕ → Cells V
  defaultValue : Option V

-- One turn of the loop of ngx_http_geo_block
def finish : Option (List (Range V)) → Cells V
  | none => .null
  | some [] => .array []
  | some a => .ranges (a.map some ++ [none])

-- ngx_http_geo_block after the parsing, where none means that the tree is used. ctx.high is copied before
-- its default value is made one that is not NULL.
def geoBlock (conf : Conf V) : Option (High V) :=
  conf.low.map fun low => ⟨fun i => finish (low i), conf.defaultValue⟩

-- The loop of ngx_http_geo_range_variable over what the entry points to
def scanCells (n : ℕ) : List (Option (Range V)) → Option (Option V)
  | [some r, none] => some (if r.start ≤ n ∧ n ≤ r.stop then some r.value else none)
  | some r :: rest => if r.start ≤ n ∧ n ≤ r.stop then some (some r.value) else scanCells n rest
  | _ => none

def highVariable (high : High V) (addr : ℕ) : Option V := do
  let v ← high.defaultValue
  match high.low (addr >>> 16) with
  | .null => return v
  | .array _ => none
  | .ranges cells => return (← scanCells (addr &&& 0xffff) cells).getD v

structure Complete (high : High V) : Prop where
  entries : ∀ i < 0x10000, high.low i = .null ∨ ∃ a : List (Range V), high.low i = .ranges (a.map some ++ [none])
  default : high.defaultValue ≠ none

variable {conf : Conf V} {ds : List (Directive V)} {high : High V} {low : Low V}

theorem scanCells_eq (n : ℕ) (a : List (Range V)) : scanCells n (a.map some ++ [none]) = scan n a := by
  induction a with
  | nil => rfl
  | cons r a ih =>
      cases a with
      | nil => rfl
      | cons r' a =>
          rw [List.map_cons, List.cons_append, scanCells, scan, ih]
          · simp
          · simp

-- The copy answers as the arrays of the parsing would.
theorem highVariable_eq (hlow : conf.low = some low) (hblock : geoBlock conf = some high) (addr : ℕ) :
    highVariable high addr = rangeVariable conf.defaultValue low addr := by
  rw [geoBlock, hlow] at hblock
  cases hblock
  rw [highVariable, rangeVariable]
  cases conf.defaultValue with
  | none => rfl
  | some v =>
      dsimp only
      cases low (addr >>> 16) with
      | none => rfl
      | some a =>
          cases a with
          | nil => rfl
          | cons r a =>
              dsimp only [finish]
              rw [scanCells_eq]

theorem parsed_default (h : Parsed ds conf) : conf.defaultValue ≠ none ↔ ∃ value, .default value ∈ ds := by
  induction h with
  | start => simp
  | @line ds conf conf' d fuel _ hrun ih =>
      have hlast : (∃ value, Directive.default value ∈ ds ++ [d]) ↔
          (∃ value, .default value ∈ ds) ∨ ∃ value, .default value = d := by
        simp [exists_or]
      rw [hlast, ← ih]
      cases d with
      | default value =>
          cases hrun
          simp
      | range line =>
          obtain ⟨result, -, heq⟩ := Option.map_eq_some_iff.mp hrun
          cases result with
          | error _ => cases heq
          | ok low =>
              cases heq
              simp
      | delete start stop ordered bounded =>
          obtain ⟨⟨visited, low, warn⟩, -, heq⟩ := Option.map_eq_some_iff.mp hrun
          cases heq
          simp

theorem finish_complete (entry : Option (List (Range V))) :
    (finish entry = .null ∨ ∃ a : List (Range V), finish entry = .ranges (a.map some ++ [none])) ↔ entry ≠ some [] := by
  cases entry with
  | none => exact iff_of_true (.inl rfl) (by simp)
  | some a =>
      cases a with
      | nil => exact iff_of_false (by simp [finish]) (by simp)
      | cons r a => exact iff_of_true (.inr ⟨r :: a, rfl⟩) (by simp)

-- The table is complete exactly when there is an answer for every address.
theorem complete_iff_answers (hblock : geoBlock conf = some high) :
    Complete high ↔ ∀ addr < 2 ^ 32, (highVariable high addr).isSome := by
  obtain ⟨low, hlow, heq⟩ := Option.map_eq_some_iff.mp hblock
  have hentry : ∀ i, high.low i = finish (low i) := fun i => by rw [← heq]
  have hdefault : high.defaultValue = conf.defaultValue := by rw [← heq]
  constructor
  · rintro ⟨hentries, hdefault'⟩ addr haddr
    have hfull := hentries (addr / 65536) (by omega)
    rw [hentry, finish_complete] at hfull
    rw [highVariable_eq hlow hblock, rangeVariable, shift_high, and_low]
    obtain ⟨v, hv⟩ := Option.ne_none_iff_exists'.mp (hdefault ▸ hdefault')
    rw [hv]
    cases harray : low (addr / 65536) with
    | none => rfl
    | some a =>
        have hne : a ≠ [] := fun hnil => hfull (by rw [harray, hnil])
        simp [scan_eq hne]
  · intro h
    constructor
    case default =>
      intro hnone
      have hzero := h 0 (by decide)
      rw [highVariable, hnone] at hzero
      cases hzero
    case entries =>
      intro i hi
      rw [hentry, finish_complete]
      intro hempty
      have hread := h (i * 65536) (by omega)
      have hdiv : i * 65536 / 65536 = i := by omega
      rw [highVariable_eq hlow hblock, rangeVariable, shift_high, hdiv, hempty] at hread
      cases hv : conf.defaultValue with
      | none =>
          rw [hv] at hread
          cases hread
      | some v =>
          rw [hv] at hread
          cases hread

theorem geoBlock_complete_iff (h : Parsed ds conf) (hlow : conf.low = some low) (hblock : geoBlock conf = some high) :
    Complete high ↔ (∃ value, .default value ∈ ds) ∧ ∀ i < 0x10000, low i ≠ some [] := by
  rw [← parsed_default h]
  rw [geoBlock, hlow] at hblock
  cases hblock
  constructor
  · rintro ⟨hentries, hdefault⟩
    exact ⟨hdefault, fun i hi => (finish_complete (low i)).mp (hentries i hi)⟩
  · rintro ⟨hdefault, hfull⟩
    exact ⟨fun i hi => (finish_complete (low i)).mpr (hfull i hi), hdefault⟩

-- default 0; 0.0.0.5-0.1.17.112 1;
def wideConf : Conf ℕ := ⟨some wideTable, some 0⟩

theorem wide_parsed : Parsed [.default 0, .range wide] wideConf := by
  have hdefault : Parsed [.default 0] ⟨none, some 0⟩ := .line (.default 0) 0 .start rfl
  have hadd : addRange wide 3 blank 5 = some (.ok wideTable) := by
    simp [addRange, place, wide, wideTable, blank, ushort, put]
  refine .line (.range wide) 3 hdefault ?_
  exact congrArg (Option.map _) hadd

theorem geoBlock_complete_wide : Complete (V := ℕ) ⟨fun i => finish (wideTable i), some 0⟩ := by
  refine (geoBlock_complete_iff wide_parsed rfl rfl).mpr ⟨⟨0, by simp⟩, fun i _ => ?_⟩
  rw [wideTable, put, put, blank]
  split
  · simp
  · split <;> simp

-- default 0; 0.0.0.5-0.0.0.9 1; delete 0.0.0.5-0.0.0.9; and a block of the first range only
def emptied : Low ℕ := put blank 0 []

theorem emptied_not_complete :
    Parsed [.default 0, .range behind, .delete 5 9 (by decide) (by decide)] ⟨some emptied, some 0⟩ ∧
      ¬Complete (V := ℕ) ⟨fun i => finish (emptied i), some 0⟩ ∧
      Parsed [.range behind] ⟨some behindTable, none⟩ ∧
      ¬Complete (V := ℕ) ⟨fun i => finish (behindTable i), none⟩ := by
  have hdefault : Parsed [.default 0] ⟨none, some 0⟩ := .line (.default 0) 0 .start rfl
  have hadd : addRange behind 2 blank 5 = some (.ok behindTable) := by
    simp [addRange, place, behind, behindTable, blank, ushort]
  have hrange : Parsed [.default 0, .range behind] ⟨some behindTable, some 0⟩ := by
    refine .line (.range behind) 2 hdefault ?_
    exact congrArg (Option.map _) hadd
  have hdelete : deleteRange 5 9 2 behindTable 5 false = some ([0], emptied, false) := by
    have hput : put behindTable 0 [] = emptied := by
      funext k
      simp only [emptied, behindTable, put]
      split <;> rfl
    simp [deleteRange, erase, hput, show behindTable 0 = some [⟨1, 5, 9⟩] from rfl]
  refine ⟨.line (.delete 5 9 (by decide) (by decide)) 2 hrange ?_, fun h => ?_, .line (.range behind) 2 .start ?_, fun h => ?_⟩
  · rw [geoRange, Option.getD_some, hdelete, Option.map_some]
  · exact (finish_complete _).mp (h.entries 0 (by decide)) rfl
  · exact congrArg (Option.map _) hadd
  · exact h.default rfl

end Nginx.Geo
