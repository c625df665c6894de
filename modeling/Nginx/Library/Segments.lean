import Mathlib

-- Paths whose segments stand between separators, where a dot is the segment's own directory and two dots
-- are the one above it.
namespace Segments

variable {α : Type _}

def render (sep : α) : List (List α) → List α → List α
  | [], seg => sep :: seg
  | dir :: dirs, seg => render sep dirs dir ++ sep :: seg

theorem render_append {sep : α} (dirs : List (List α)) (seg tail : List α) :
    render sep dirs (seg ++ tail) = render sep dirs seg ++ tail := by
  cases dirs <;> simp [render]

theorem render_cons {sep : α} (dir : List α) (dirs : List (List α)) :
    render sep (dir :: dirs) [] = render sep dirs dir ++ [sep] := rfl

theorem render_ends (sep : α) (dirs : List (List α)) : ∃ path, render sep dirs [] = path ++ [sep] := by
  cases dirs with
  | nil => exact ⟨[], rfl⟩
  | cons dir dirs => exact ⟨render sep dirs dir, rfl⟩

theorem render_split (sep : α) (dirs : List (List α)) (seg : List α) : ∃ front, render sep dirs seg = front ++ sep :: seg := by
  cases dirs with
  | nil => exact ⟨[], rfl⟩
  | cons dir dirs => exact ⟨render sep dirs dir, rfl⟩

variable [DecidableEq α] (sep dot : α)

-- The directories that a path is in, the innermost one first, after one more segment.
def enter (dirs : List (List α)) (seg : List α) : Option (List (List α)) :=
  if seg = [] ∨ seg = [dot] then some dirs
  else if seg = [dot, dot] then
    match dirs with
    | [] => none
    | _ :: dirs => some dirs
  else some (seg :: dirs)

-- The path that ends with a segment.
def close (dirs : List (List α)) (seg : List α) : Option (List α) :=
  if seg = [dot] ∨ seg = [dot, dot] then (enter dot dirs seg).map fun dirs => render sep dirs []
  else some (render sep dirs seg)

-- The path behind a leading separator without empty segments and dots.
def resolve (path : List α) : Option (List α) := do
  let dirs ← (path.splitOn sep).dropLast.foldlM (enter dot) []
  close sep dot dirs ((path.splitOn sep).getLastD [])

-- The same path read one element at a time.
def step (dirs : List (List α)) (seg : List α) (c : α) : Option (List (List α) × List α) :=
  if c = sep then (enter dot dirs seg).map fun dirs => (dirs, []) else some (dirs, seg ++ [c])

def walk : List (List α) → List α → List α → Option (List (List α) × List α)
  | dirs, seg, [] => some (dirs, seg)
  | dirs, seg, c :: path => do
      let (dirs, seg) ← step sep dot dirs seg c
      walk dirs seg path

variable {sep dot : α} {dirs : List (List α)} {seg : List α}

theorem walk_splitOn (dirs : List (List α)) (seg path : List α) (hseg : sep ∉ seg) :
    walk sep dot dirs seg path =
      (((seg ++ path).splitOn sep).dropLast.foldlM (enter dot) dirs).map fun dirs =>
        (dirs, ((seg ++ path).splitOn sep).getLastD []) := by
  induction path generalizing dirs seg with
  | nil =>
      rw [List.append_nil, List.splitOn_eq_singleton hseg]
      rfl
  | cons c path ih =>
      rw [walk, step]
      by_cases hc : c = sep
      · subst hc
        have hne := List.splitOn_ne_nil c path
        rw [if_pos rfl, List.splitOn_append_cons_self_of_not_mem hseg, List.dropLast_cons_of_ne_nil hne,
          List.foldlM_cons]
        have hlast : (seg :: path.splitOn c).getLastD [] = (path.splitOn c).getLastD [] := by
          cases hsplit : path.splitOn c with
          | nil => exact absurd hsplit hne
          | cons s segs => rfl
        rw [hlast]
        cases henter : enter dot dirs seg with
        | none => rfl
        | some dirs' => exact ih dirs' [] (by simp)
      · rw [if_neg hc]
        have hseg' : sep ∉ seg ++ [c] := by
          rw [List.mem_append, List.mem_singleton, not_or]
          exact ⟨hseg, Ne.symm hc⟩
        have hrest := ih dirs (seg ++ [c]) hseg'
        rw [List.append_assoc, List.singleton_append] at hrest
        exact hrest

theorem resolve_eq_walk (path : List α) :
    resolve sep dot path = (walk sep dot [] [] path).bind fun w => close sep dot w.1 w.2 := by
  rw [walk_splitOn [] [] path (by simp), List.nil_append, resolve]
  cases (path.splitOn sep).dropLast.foldlM (enter dot) [] <;> rfl

-- What a walk keeps: directories are not empty, and no segment has a separator.
structure Proper (sep : α) (dirs : List (List α)) (seg : List α) : Prop where
  dirs : ∀ dir ∈ dirs, dir ≠ [] ∧ sep ∉ dir
  seg : sep ∉ seg

theorem Proper.enter (h : Proper sep dirs seg) {dirs' : List (List α)} (henter : enter dot dirs seg = some dirs') :
    Proper sep dirs' [] := by
  obtain ⟨hdirs, hseg⟩ := h
  unfold Segments.enter at henter
  split at henter
  · cases henter
    exact ⟨hdirs, by simp⟩
  · rename_i hne
    split at henter
    · cases dirs with
      | nil => cases henter
      | cons dir dirs =>
          cases henter
          exact ⟨fun d hd => hdirs d (by simp [hd]), by simp⟩
    · cases henter
      refine ⟨fun d hd => ?_, by simp⟩
      rcases List.mem_cons.mp hd with rfl | hd
      · exact ⟨fun hnil => hne (.inl hnil), hseg⟩
      · exact hdirs d hd

theorem Proper.step (h : Proper sep dirs seg) {c : α} {dirs' : List (List α)} {seg' : List α}
    (hstep : step sep dot dirs seg c = some (dirs', seg')) : Proper sep dirs' seg' := by
  unfold Segments.step at hstep
  split at hstep
  · rw [Option.map_eq_some_iff] at hstep
    obtain ⟨dirs₁, henter, heq⟩ := hstep
    cases heq
    exact h.enter henter
  · rename_i hc
    cases hstep
    refine ⟨h.dirs, ?_⟩
    rw [List.mem_append, List.mem_singleton, not_or]
    exact ⟨h.seg, Ne.symm hc⟩

-- A step that leaves the path as it is.
theorem step_kept (dirs : List (List α)) (seg : List α) (c : α)
    (h : c = sep → seg ≠ [] ∧ seg ≠ [dot] ∧ seg ≠ [dot, dot]) :
    ∃ dirs' seg', step sep dot dirs seg c = some (dirs', seg') ∧ render sep dirs' seg' = render sep dirs seg ++ [c] := by
  by_cases hc : c = sep
  · obtain ⟨hnil, hdot, hdots⟩ := h hc
    refine ⟨seg :: dirs, [], ?_, by rw [hc, render_cons]⟩
    have henter : enter dot dirs seg = some (seg :: dirs) := by simp [enter, hnil, hdot, hdots]
    rw [step, if_pos hc, henter]
    rfl
  · exact ⟨dirs, seg ++ [c], by rw [step, if_neg hc], render_append dirs seg [c]⟩

-- Where a segment stands in a path: the whole path, in front, at the end or between two separators.
theorem takeWhile_eq_iff {path : List α} (hseg : sep ∉ seg) :
    path.takeWhile (· ≠ sep) = seg ↔ path = seg ∨ seg ++ [sep] <+: path := by
  induction path generalizing seg with
  | nil =>
      have hnone : ¬seg ++ [sep] <+: [] := by simp
      simp only [List.takeWhile_nil, hnone, or_false]
  | cons c path ih =>
      by_cases hc : c = sep
      · subst hc
        rw [List.takeWhile_cons_of_neg (by simp)]
        cases seg with
        | nil => simp
        | cons d seg =>
            have hd : c ≠ d := fun heq => hseg (heq ▸ List.mem_cons_self)
            simp [hd, Ne.symm hd]
      · rw [List.takeWhile_cons_of_pos (by simpa using hc)]
        cases seg with
        | nil => simp [Ne.symm hc]
        | cons d seg =>
            have hseg' : sep ∉ seg := fun hmem => hseg (List.mem_cons_of_mem _ hmem)
            rw [List.cons.injEq, ih hseg', List.cons.injEq, List.cons_append, List.cons_prefix_cons, eq_comm (a := d)]
            tauto

theorem splitOn_eq_cons (sep : α) (path : List α) :
    ∃ segs, path.splitOn sep = path.takeWhile (· ≠ sep) :: segs ∧
      ∀ seg, sep ∉ seg → (seg ∈ segs ↔ sep :: seg <:+ path ∨ sep :: (seg ++ [sep]) <:+: path) := by
  induction path with
  | nil => exact ⟨[], by simp, by simp⟩
  | cons c path ih =>
      obtain ⟨segs, hsplit, hsegs⟩ := ih
      rw [List.splitOn_eq_splitOnP] at hsplit ⊢
      rw [List.splitOnP_cons_eq_if_modifyHead, hsplit]
      by_cases hc : c = sep
      · subst hc
        refine ⟨path.takeWhile (· ≠ c) :: segs, by simp, fun seg hseg => ?_⟩
        rw [List.mem_cons, hsegs seg hseg, eq_comm (a := seg), takeWhile_eq_iff hseg, List.suffix_cons_iff,
          List.infix_cons_iff, List.cons_prefix_cons, List.cons.injEq, eq_comm (a := seg)]
        tauto
      · refine ⟨segs, by simp [hc], fun seg hseg => ?_⟩
        rw [hsegs seg hseg, List.suffix_cons_iff, List.infix_cons_iff, List.cons_prefix_cons, List.cons.injEq,
          eq_comm (a := sep)]
        tauto

theorem mem_splitOn_iff {path : List α} (hseg : sep ∉ seg) :
    seg ∈ path.splitOn sep ↔
      path = seg ∨ seg ++ [sep] <+: path ∨ sep :: seg <:+ path ∨ sep :: (seg ++ [sep]) <:+: path := by
  obtain ⟨segs, hsplit, hsegs⟩ := splitOn_eq_cons sep path
  rw [hsplit, List.mem_cons, hsegs seg hseg, eq_comm, takeWhile_eq_iff hseg, or_assoc]

end Segments
