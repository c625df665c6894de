import Nginx.Http.Location.Joined

namespace Nginx.Location

open FirstDifference
open Hash (strncmp)

variable {α : Type}

theorem strncmp_prefix_iff (s t : Bytes) (hs : 0 ∉ s) (hlen : s.length ≤ t.length) :
    strncmp s.length s t = true ↔ s <+: t := by
  induction s generalizing t with
  | nil => simp [strncmp]
  | cons c s ih =>
      cases t with
      | nil => simp at hlen
      | cons d t =>
          have hc : c ≠ 0 := fun h => hs (h ▸ List.mem_cons_self)
          have hrest := ih t (fun hmem => hs (List.mem_cons_of_mem _ hmem)) (by simpa using hlen)
          rw [List.length_cons, strncmp, List.headD_cons, List.headD_cons, List.tail_cons, List.tail_cons,
            List.cons_prefix_cons]
          by_cases hcd : c = d
          · simp [hcd ▸ hc, hcd, hrest]
          · simp [hcd]

theorem isUnder_iff (lq lx : Lq α) (h : 0 ∉ lq.name) : isUnder lq lx = true ↔ lq.name <+: lx.name := by
  rw [isUnder, Bool.not_eq_true', Bool.or_eq_false_iff, decide_eq_false_iff_not, Bool.not_eq_false',
    Nat.not_lt]
  constructor
  · exact fun hunder => (strncmp_prefix_iff lq.name lx.name h hunder.1).mp hunder.2
  · exact fun hpre => ⟨hpre.length_le, (strncmp_prefix_iff lq.name lx.name h hpre.length_le).mpr hpre⟩

-- All elements, in the order of the queue before it was regrouped
def Locations.entries : Locations α → List (Lq α)
  | .nil => []
  | .cons lq list next => lq :: (list.entries ++ next.entries)

def entriesOf (level : List (Lq α × Locations α)) : List (Lq α) :=
  level.flatMap fun block => block.1 :: block.2.entries

theorem entriesOf_level (locations : Locations α) : entriesOf locations.level = locations.entries := by
  induction locations with
  | nil => rfl
  | cons lq list next _ ihnext =>
      rw [Locations.level, entriesOf, List.flatMap_cons, Locations.entries, List.cons_append]
      rw [entriesOf] at ihnext
      rw [ihnext]

theorem mem_entriesOf (level : List (Lq α × Locations α)) (lq : Lq α) :
    lq ∈ entriesOf level ↔ ∃ block ∈ level, lq = block.1 ∨ lq ∈ block.2.entries := by
  simp only [entriesOf, List.mem_flatMap, List.mem_cons]

def Apart (lq lx : Lq α) : Prop :=
  NameLess lq.name lx.name ∧ (lq.inclusive ≠ none → ¬lq.name <+: lx.name)

-- A queue as ngx_http_create_locations_list leaves it: its names begin with pre and go on for at most 255 bytes, no
-- inclusive name begins another one, and the names below an element go on from its name.
inductive Level : Bytes → List (Lq α × Locations α) → Prop
  | nil (pre : Bytes) : Level pre []
  | cons (pre : Bytes) (lq : Lq α) (list : Locations α) (rest : List (Lq α × Locations α)) :
      pre <+: lq.name → lq.name.length ≤ pre.length + 255 → (∀ block ∈ rest, Apart lq block.1) →
      (∀ lx ∈ list.entries, lq.inclusive ≠ none ∧ lq.name <+: lx.name ∧ lq.name ≠ lx.name) →
      Level lq.name list.level → Level pre rest → Level pre ((lq, list) :: rest)

-- Each name goes on for at most 255 bytes from pre or from an inclusive name that begins it.
def Short (pre : Bytes) (locations : List (Lq α)) : Prop :=
  ∀ lx ∈ locations, lx.name.length ≤ pre.length + 255 ∨
    ∃ lq ∈ locations, lq.inclusive ≠ none ∧ lq.name <+: lx.name ∧ lq.name ≠ lx.name ∧
      lx.name.length ≤ lq.name.length + 255

section

variable {lq : Lq α} {next : List (Lq α)}

-- What stands behind the elements under lq is not under it.
theorem dropWhile_not_under (hnul : 0 ∉ lq.name)
    (hless : ∀ lx ∈ next, NameLess lq.name lx.name)
    (hsorted : next.Pairwise fun one two => NameLess one.name two.name) :
    ∀ lx ∈ next.dropWhile (isUnder lq), ¬lq.name <+: lx.name := by
  induction next with
  | nil => simp
  | cons first next ih =>
      obtain ⟨hfirst, hsorted'⟩ := List.pairwise_cons.mp hsorted
      have hless' : ∀ lx ∈ next, NameLess lq.name lx.name := fun lx hlx => hless lx (List.mem_cons_of_mem _ hlx)
      by_cases hunder : isUnder lq first = true
      · rw [List.dropWhile_cons_of_pos hunder]
        exact ih hless' hsorted'
      · rw [List.dropWhile_cons_of_neg hunder]
        have hnot : ¬lq.name <+: first.name := fun hpre => hunder ((isUnder_iff lq first hnul).mpr hpre)
        intro lx hlx
        rcases List.mem_cons.mp hlx with rfl | hlx
        · exact hnot
        · exact fun hpre => hnot ((hless first List.mem_cons_self).between (hfirst lx hlx) hpre)

theorem takeWhile_under (hnul : 0 ∉ lq.name) : ∀ lx ∈ next.takeWhile (isUnder lq), lq.name <+: lx.name := by
  intro lx hlx
  exact (isUnder_iff lq lx hnul).mp (List.mem_takeWhile_imp hlx)

theorem Short.head {pre : Bytes} (h : Short pre (lq :: next)) (hless : ∀ lx ∈ next, NameLess lq.name lx.name) :
    lq.name.length ≤ pre.length + 255 := by
  rcases h lq List.mem_cons_self with hle | ⟨lx, hlx, -, hpre, hne, -⟩
  · exact hle
  · rcases List.mem_cons.mp hlx with rfl | hlx
    · exact absurd rfl hne
    · exact absurd hpre (hless lx hlx).not_start

theorem Short.tail {pre : Bytes} (h : Short pre (lq :: next)) (hnone : lq.inclusive = none) : Short pre next := by
  intro lx hlx
  rcases h lx (List.mem_cons_of_mem _ hlx) with hle | ⟨ly, hly, hinc, hrest⟩
  · exact Or.inl hle
  · rcases List.mem_cons.mp hly with rfl | hly
    · exact absurd hnone hinc
    · exact Or.inr ⟨ly, hly, hinc, hrest⟩

theorem Short.dropWhile {pre : Bytes} (h : Short pre (lq :: next)) (hnul : 0 ∉ lq.name)
    (hnot : ∀ lx ∈ next.dropWhile (isUnder lq), ¬lq.name <+: lx.name) :
    Short pre (next.dropWhile (isUnder lq)) := by
  intro lx hlx
  have hmem : lx ∈ next := List.dropWhile_subset _ hlx
  rcases h lx (List.mem_cons_of_mem _ hmem) with hle | ⟨ly, hly, hinc, hpre, hrest⟩
  · exact Or.inl hle
  · rcases List.mem_cons.mp hly with rfl | hly
    · exact absurd hpre (hnot lx hlx)
    · rw [← List.takeWhile_append_dropWhile (p := isUnder lq) (l := next)] at hly
      rcases List.mem_append.mp hly with hly | hly
      · exact absurd ((takeWhile_under hnul ly hly).trans hpre) (hnot lx hlx)
      · exact Or.inr ⟨ly, hly, hinc, hpre, hrest⟩

theorem Short.takeWhile {pre : Bytes} (h : Short pre (lq :: next)) (hnul : 0 ∉ lq.name) (hpre : pre <+: lq.name)
    (hless : ∀ lx ∈ next, NameLess lq.name lx.name)
    (hnot : ∀ lx ∈ next.dropWhile (isUnder lq), ¬lq.name <+: lx.name) :
    Short lq.name (next.takeWhile (isUnder lq)) := by
  intro lx hlx
  have hunder : lq.name <+: lx.name := takeWhile_under hnul lx hlx
  have hmem : lx ∈ next := List.takeWhile_subset _ hlx
  rcases h lx (List.mem_cons_of_mem _ hmem) with hle | ⟨ly, hly, hinc, hly', hne, hle⟩
  · have hlen := hpre.length_le
    exact Or.inl (by omega)
  · rcases List.mem_cons.mp hly with rfl | hly
    · exact Or.inl hle
    · have hsplit := hly
      rw [← List.takeWhile_append_dropWhile (p := isUnder lq) (l := next)] at hsplit
      rcases List.mem_append.mp hsplit with hin | hout
      · exact Or.inr ⟨ly, hin, hinc, hly', hne, hle⟩
      · -- both lq and ly begin lx
        rcases List.prefix_or_prefix_of_prefix hunder hly' with hbegin | hbegin
        · exact absurd hbegin (hnot ly hout)
        · exact absurd hbegin (hless ly hly).not_start

end

theorem createLocationsList_entries (n : Nat) (locations : List (Lq α)) (hn : locations.length ≤ n) :
    (createLocationsList n locations).entries = locations := by
  fun_induction createLocationsList n locations with
  | case1 locations => exact (List.length_eq_zero_iff.mp (Nat.le_zero.mp hn)).symm
  | case2 n => rfl
  | case3 n lq => rfl
  | case4 n lq next hne hnone ih =>
      rw [Locations.entries, Locations.entries, List.nil_append, ih (by simpa using hn)]
  | case5 n lq next hne hsome ihtake ihdrop =>
      have hlen : next.length ≤ n := by simpa using hn
      have htake := (List.takeWhile_sublist (isUnder lq) (l := next)).length_le
      have hdrop := (List.dropWhile_sublist (isUnder lq) (l := next)).length_le
      rw [Locations.entries, ihtake (by omega), ihdrop (by omega), List.takeWhile_append_dropWhile]

theorem createLocationsList_level (n : Nat) (locations : List (Lq α)) (pre : Bytes)
    (hn : locations.length ≤ n) (hnul : ∀ lq ∈ locations, 0 ∉ lq.name)
    (hsorted : locations.Pairwise fun one two => NameLess one.name two.name)
    (hpre : ∀ lq ∈ locations, pre <+: lq.name) (hshort : Short pre locations) :
    Level pre (createLocationsList n locations).level := by
  fun_induction createLocationsList n locations generalizing pre with
  | case1 locations => exact Level.nil pre
  | case2 n => exact Level.nil pre
  | case3 n lq =>
      have hlen := hshort.head (by simp)
      exact Level.cons pre lq .nil [] (hpre lq List.mem_cons_self) hlen (by simp) (by simp [Locations.entries])
        (Level.nil _) (Level.nil _)
  | case4 n lq next hne hnone ih =>
      rw [Option.isNone_iff_eq_none] at hnone
      obtain ⟨hless, hsorted'⟩ := List.pairwise_cons.mp hsorted
      have hlen : next.length ≤ n := by simpa using hn
      have hlevel := ih pre hlen (fun lx hlx => hnul lx (List.mem_cons_of_mem _ hlx)) hsorted'
        (fun lx hlx => hpre lx (List.mem_cons_of_mem _ hlx)) (hshort.tail hnone)
      refine Level.cons pre lq .nil _ (hpre lq List.mem_cons_self) (hshort.head hless) ?_
        (by simp [Locations.entries]) (Level.nil _) hlevel
      intro block hblock
      have hmem : block.1 ∈ next := by
        rw [← createLocationsList_entries n next hlen, ← entriesOf_level, mem_entriesOf]
        exact ⟨block, hblock, Or.inl rfl⟩
      exact ⟨hless block.1 hmem, fun hinc => absurd hnone hinc⟩
  | case5 n lq next hne hsome ihtake ihdrop =>
      rw [Option.isNone_iff_eq_none] at hsome
      obtain ⟨hless, hsorted'⟩ := List.pairwise_cons.mp hsorted
      have hlq : 0 ∉ lq.name := hnul lq List.mem_cons_self
      have hnot := dropWhile_not_under hlq hless hsorted'
      have hlen : next.length ≤ n := by simpa using hn
      have htakeSub := List.takeWhile_sublist (isUnder lq) (l := next)
      have hdropSub := List.dropWhile_sublist (isUnder lq) (l := next)
      have htakeLen : (next.takeWhile (isUnder lq)).length ≤ n := htakeSub.length_le.trans hlen
      have hdropLen : (next.dropWhile (isUnder lq)).length ≤ n := hdropSub.length_le.trans hlen
      have hlist := ihtake lq.name htakeLen
        (fun lx hlx => hnul lx (List.mem_cons_of_mem _ (htakeSub.subset hlx))) (hsorted'.sublist htakeSub)
        (takeWhile_under hlq) (hshort.takeWhile hlq (hpre lq List.mem_cons_self) hless hnot)
      have hrest := ihdrop pre hdropLen
        (fun lx hlx => hnul lx (List.mem_cons_of_mem _ (hdropSub.subset hlx))) (hsorted'.sublist hdropSub)
        (fun lx hlx => hpre lx (List.mem_cons_of_mem _ (hdropSub.subset hlx))) (hshort.dropWhile hlq hnot)
      refine Level.cons pre lq _ _ (hpre lq List.mem_cons_self) (hshort.head hless) ?_ ?_ hlist hrest
      · intro block hblock
        have hmem : block.1 ∈ next.dropWhile (isUnder lq) := by
          rw [← createLocationsList_entries n _ hdropLen, ← entriesOf_level, mem_entriesOf]
          exact ⟨block, hblock, Or.inl rfl⟩
        exact ⟨hless block.1 (hdropSub.subset hmem), fun _ => hnot block.1 hmem⟩
      · intro lx hlx
        rw [createLocationsList_entries n _ htakeLen] at hlx
        refine ⟨hsome, takeWhile_under hlq lx hlx, ?_⟩
        intro heq
        have hirr := hless lx (htakeSub.subset hlx)
        rw [heq] at hirr
        exact Less.irrefl hirr

end Nginx.Location
