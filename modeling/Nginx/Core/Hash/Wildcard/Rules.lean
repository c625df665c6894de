import Nginx.Core.Hash.Wildcard.Walk

namespace Nginx.Hash

open LongestMatch

-- The labels of a name in an array of wildcards, and whether it ends with a dot
def nameLabels (data : Bytes) : List Bytes × Bool :=
  if 1 < (labels data).length ∧ (labels data).getLast? = some [] then ((labels data).dropLast, true)
  else (labels data, false)

def ruleOf (name : Key) : Rule Bytes Nat := ⟨(nameLabels name.data).1, (nameLabels name.data).2, name.value⟩

theorem nameLabels_label {label : Bytes} (h : dot ∉ label) : nameLabels label = ([label], false) := by
  simp [nameLabels, labels_label h]

theorem nameLabels_dot {label : Bytes} (h : dot ∉ label) : nameLabels (label ++ [dot]) = ([label], true) := by
  have hlabels : labels (label ++ [dot]) = [label, []] := by
    rw [labels_cons h]
    rfl
  simp [nameLabels, hlabels]

theorem nameLabels_cons {label : Bytes} (h : dot ∉ label) {rest : Bytes} (hrest : rest ≠ []) :
    nameLabels (label ++ dot :: rest) = (label :: (nameLabels rest).1, (nameLabels rest).2) := by
  obtain ⟨first, others, hlabels⟩ := List.exists_cons_of_ne_nil (labels_ne_nil rest)
  have hlast : (labels (label ++ dot :: rest)).getLast? = (labels rest).getLast? := by
    rw [labels_cons h, hlabels, List.getLast?_cons_cons]
  have hdrop : (labels (label ++ dot :: rest)).dropLast = label :: (labels rest).dropLast := by
    rw [labels_cons h, hlabels, List.dropLast_cons_cons]
  have hlong : 1 < (labels (label ++ dot :: rest)).length := by
    rw [labels_cons h, hlabels]
    simp
  unfold nameLabels
  rw [hlast, hdrop]
  by_cases hempty : (labels rest).getLast? = some []
  · have hmore : 1 < (labels rest).length := by
      cases others with
      | nil =>
          rw [hlabels] at hempty
          have hfirst : first = [] := by simpa using hempty
          exact absurd (labels_injective (a := rest) (b := []) (by rw [hlabels, hfirst]; rfl)) hrest
      | cons second others => rw [hlabels]; simp
    simp [hempty, hlong, hmore]
  · simp [hempty, labels_cons h]

-- No two of the strings are the same up to a NUL, the one at the end included.
def NulApart (a b : Bytes) : Prop := ¬∃ q, q ++ [0] <+: a ++ [0] ∧ q ++ [0] <+: b ++ [0]

theorem NulApart.of_append (h : NulApart (p ++ a) (p ++ b)) : NulApart a b := by
  rintro ⟨q, ha, hb⟩
  apply h
  refine ⟨p ++ q, ?_, ?_⟩
  · rw [List.append_assoc, List.append_assoc]
    exact (List.prefix_append_right_inj p).mpr ha
  · rw [List.append_assoc, List.append_assoc]
    exact (List.prefix_append_right_inj p).mpr hb

theorem strncmp_iff {n : Nat} {a b : Bytes} (h : NulApart a b) (hn : n ≤ a.length) :
    strncmp n a b = true ↔ a.take n <+: b := by
  induction n generalizing a b with
  | zero => simp [strncmp]
  | succ n ih =>
      cases a with
      | nil => simp at hn
      | cons c a =>
          have hend : c = 0 → b.headD 0 ≠ 0 := by
            rintro rfl hb
            apply h
            refine ⟨[], by simp, ?_⟩
            cases b with
            | nil => simp
            | cons d b =>
                have hd : d = 0 := hb
                simp [hd]
          cases b with
          | nil =>
              have hc : c ≠ 0 := fun hc => hend hc rfl
              simp [strncmp, hc]
          | cons d b =>
              by_cases hcd : c = d
              · subst hcd
                have hc : c ≠ 0 := fun hc => hend hc hc
                have hrest := ih (a := a) (b := b) (NulApart.of_append (p := [c]) h) (by simpa using hn)
                simp [strncmp, hc, hrest, List.cons_prefix_cons]
              · simp [strncmp, hcd, List.cons_prefix_cons]

-- What an array of wildcards needs for its hash to be right
structure Level (names : List Key) : Prop where
  grouped : Grouped (names.map fun name => (nameLabels name.data).1)
  nul : names.Pairwise fun a b => NulApart a.data b.data
  lower : ∀ name ∈ names, name.data.map tolower = name.data
  values : ∀ name ∈ names, name.value ≠ 0 ∧ name.value % 4 = 0 ∧ name.value < 2 ^ 64

theorem Level.sublist (h : Level names) (hsub : names'.Sublist names) : Level names' where
  grouped := h.grouped.sublist (hsub.map _)
  nul := h.nul.sublist hsub
  lower name hmem := h.lower name (hsub.subset hmem)
  values name hmem := h.values name (hsub.subset hmem)

theorem dot_not_mem_firstLabel (name : Key) : dot ∉ firstLabel name := by
  rcases first_label_cases name.data with h | ⟨label, rest, hlabel, hname⟩
  · rw [firstLabel, takeWhile_label h]
    exact h
  · rw [firstLabel, hname, takeWhile_first hlabel]
    exact hlabel

theorem nameLabels_head (name : Key) : ∃ rest, (nameLabels name.data).1 = firstLabel name :: rest := by
  rcases first_label_cases name.data with h | ⟨label, rest, hlabel, hname⟩
  · rw [firstLabel, takeWhile_label h, nameLabels_label h]
    exact ⟨[], rfl⟩
  · rw [firstLabel, hname, takeWhile_first hlabel]
    by_cases hrest : rest = []
    · rw [hrest, nameLabels_dot hlabel]
      exact ⟨[], rfl⟩
    · rw [nameLabels_cons hlabel hrest]
      exact ⟨_, rfl⟩

theorem prefix_nameLabels_iff (name : Key) (label : Bytes) :
    [label] <+: (nameLabels name.data).1 ↔ firstLabel name = label := by
  obtain ⟨rest, hrest⟩ := nameLabels_head name
  rw [hrest, List.cons_prefix_cons]
  simp [eq_comm]

-- What the second loop separates: the names with the label of the first one, and the others behind them.
structure Group (name : Key) (others rest : List Key) : Prop where
  members : ∀ other ∈ others, ∃ r, r ≠ [] ∧ other.data = firstLabel name ++ dot :: r
  outside : ∀ other ∈ rest, firstLabel other ≠ firstLabel name

theorem not_nulApart_self (a : Bytes) : ¬NulApart a a :=
  fun h => h ⟨a, List.prefix_refl _, List.prefix_refl _⟩

-- A name behind the first one with the same label has something behind its dot.
theorem Level.member {name other : Key} {names : List Key} (h : Level (name :: names)) (hother : other ∈ names)
    (hlabel : firstLabel other = firstLabel name) : ∃ r, r ≠ [] ∧ other.data = firstLabel name ++ dot :: r := by
  have hnul := List.rel_of_pairwise_cons h.nul hother
  have hfirst : ¬(nameLabels other.data).1 <+: (nameLabels name.data).1 := by
    apply h.grouped.first
    exact List.Sublist.cons_cons _ (List.singleton_sublist.mpr (List.mem_map_of_mem hother))
  obtain ⟨rest, hrest⟩ := nameLabels_head name
  have hsingle : (nameLabels other.data).1 ≠ [firstLabel name] := by
    intro heq
    rw [heq, hrest] at hfirst
    exact hfirst (by simp)
  rcases first_label_cases other.data with hdot | ⟨label, r, hdot, hdata⟩
  · exfalso
    apply hsingle
    rw [← hlabel, firstLabel, takeWhile_label hdot, nameLabels_label hdot]
  · have heq : label = firstLabel name := by rw [← hlabel, firstLabel, hdata, takeWhile_first hdot]
    refine ⟨r, ?_, by rw [hdata, heq]⟩
    rintro rfl
    apply hsingle
    rw [hdata, nameLabels_dot hdot, heq]

theorem inGroup_iff {name other : Key} {names : List Key} (h : Level (name :: names)) (hother : other ∈ names) :
    inGroup name other = true ↔ firstLabel other = firstLabel name := by
  unfold inGroup labelLen hasDot
  have hnul := List.rel_of_pairwise_cons h.nul hother
  rcases first_label_cases name.data with hdot | ⟨label, r, hdot, hdata⟩
  · have hfirst : firstLabel name = name.data := takeWhile_label hdot
    simp only [hfirst, Nat.lt_irrefl, if_false, decide_false, sameGroup, Bool.not_false, Bool.true_and,
      Bool.and_eq_true, strncmp_iff hnul (Nat.le_refl _), List.take_length]
    constructor
    · rintro ⟨⟨s, hs⟩, hnext⟩
      cases s with
      | nil =>
          rw [List.append_nil] at hs
          rw [hs] at hnul
          exact absurd hnul (not_nulApart_self _)
      | cons c s =>
          have hc : c = dot := by simpa [← hs] using hnext
          rw [firstLabel, ← hs, hc, takeWhile_first hdot]
    · intro hlabel
      obtain ⟨s, -, hs⟩ := h.member hother (by rw [hlabel, hfirst])
      rw [hfirst] at hs
      rw [hs]
      simp
  · have hfirst : firstLabel name = label := by rw [firstLabel, hdata, takeWhile_first hdot]
    have hlt : label.length < name.data.length := by
      rw [hdata, List.length_append, List.length_cons]
      omega
    have htake : name.data.take (label.length + 1) = label ++ [dot] := by
      rw [hdata, List.take_append]
      simp
    simp only [hfirst, hlt, if_true, decide_true, sameGroup, Bool.not_true, Bool.false_and, Bool.not_false,
      Bool.and_true, strncmp_iff hnul hlt, htake]
    constructor
    · rintro ⟨s, hs⟩
      rw [firstLabel, ← hs, List.append_assoc, List.singleton_append, takeWhile_first hdot]
    · intro hlabel
      obtain ⟨s, -, hs⟩ := h.member hother (by rw [hlabel, hfirst])
      rw [hfirst] at hs
      exact ⟨s, by rw [hs, List.append_assoc, List.singleton_append]⟩

theorem drop_takeWhile (p : α → Bool) (l : List α) : l.drop (l.takeWhile p).length = l.dropWhile p := by
  induction l with
  | nil => rfl
  | cons a l ih =>
      by_cases h : p a = true
      · rw [List.takeWhile_cons_of_pos h, List.dropWhile_cons_of_pos h, List.length_cons, List.drop_succ_cons, ih]
      · rw [List.takeWhile_cons_of_neg h, List.dropWhile_cons_of_neg h]
        rfl

theorem Level.group {name : Key} {names : List Key} (h : Level (name :: names)) :
    Group name (names.takeWhile (inGroup name)) (names.dropWhile (inGroup name)) := by
  constructor
  · intro other hmem
    have hother : other ∈ names := (List.takeWhile_prefix _).subset hmem
    exact h.member hother ((inGroup_iff h hother).mp (List.mem_takeWhile_imp hmem))
  · intro other hmem hlabel
    have hsub : (names.dropWhile (inGroup name)).Sublist names := (List.dropWhile_suffix _).sublist
    cases hdrop : names.dropWhile (inGroup name) with
    | nil => rw [hdrop] at hmem; cases hmem
    | cons first rest =>
        rw [hdrop] at hmem hsub
        have hfirst : firstLabel first ≠ firstLabel name := by
          rw [Ne, ← inGroup_iff h (hsub.subset List.mem_cons_self)]
          have hnot := List.head_dropWhile_not (inGroup name) (l := names) (by rw [hdrop]; simp)
          simpa [hdrop] using hnot
        rcases List.mem_cons.mp hmem with rfl | hrest
        · exact hfirst hlabel
        · have hthree : [name, first, other].Sublist (name :: names) :=
            (((List.singleton_sublist.mpr hrest).cons_cons first).trans hsub).cons_cons name
          have hbetween := h.grouped.between _ _ _ (hthree.map fun n : Key => (nameLabels n.data).1) [firstLabel name]
            (by simp) ((prefix_nameLabels_iff _ _).mpr rfl) ((prefix_nameLabels_iff _ _).mpr hlabel)
          exact hfirst ((prefix_nameLabels_iff _ _).mp hbetween)

def rulesOf (names : List Key) : List (Rule Bytes Nat) := names.map ruleOf

-- The rule of the first name of a group when it has no label behind the first one
def ownRule (name : Key) : List (Rule Bytes Nat) :=
  if (nameLabels name.data).1 = [firstLabel name] then [⟨[], (nameLabels name.data).2, name.value⟩] else []

theorem below_ruleOf_of_ne {name : Key} {label : Bytes} (h : firstLabel name ≠ label) :
    (ruleOf name).below label = none := by
  obtain ⟨rest, hrest⟩ := nameLabels_head name
  simp [Rule.below, ruleOf, hrest, h]

theorem below_ruleOf {name : Key} {label r : Bytes} (hlabel : dot ∉ label) (hr : r ≠ [])
    (hdata : name.data = label ++ dot :: r) :
    (ruleOf name).below label = some (ruleOf (plainKey r 0 name.value)) := by
  simp [Rule.below, ruleOf, hdata, nameLabels_cons hlabel hr, plainKey]

theorem below_rest {label : Bytes} {names : List Key} (h : ∀ name ∈ names, firstLabel name ≠ label) :
    below label (rulesOf names) = [] := by
  rw [below, List.filterMap_eq_nil_iff]
  intro rule hrule
  obtain ⟨name, hname, rfl⟩ := List.mem_map.mp hrule
  exact below_ruleOf_of_ne (h name hname)

theorem Group.below_others {name : Key} {others rest : List Key} (h : Group name others rest) :
    below (firstLabel name) (rulesOf others) =
      rulesOf (others.map fun other => plainKey (other.data.drop ((firstLabel name).length + 1)) 0 other.value) := by
  have hmembers := h.members
  clear h
  induction others with
  | nil => rfl
  | cons other others ih =>
      obtain ⟨r, hr, hdata⟩ := hmembers other List.mem_cons_self
      have hrest := ih fun o ho => hmembers o (List.mem_cons_of_mem _ ho)
      have hdrop : other.data.drop ((firstLabel name).length + 1) = r := by rw [hdata, drop_first]
      rw [rulesOf, List.map_cons, below, List.filterMap_cons,
        below_ruleOf (dot_not_mem_firstLabel name) hr hdata, List.map_cons, hdrop]
      exact congrArg _ hrest

-- A name is its first label, that label with a dot, or it goes on behind the dot.
theorem firstLabel_cases (name : Key) :
    name.data = firstLabel name ∨ name.data = firstLabel name ++ [dot] ∨
      ∃ r, r ≠ [] ∧ name.data = firstLabel name ++ dot :: r := by
  rcases first_label_cases name.data with h | ⟨label, rest, hlabel, hname⟩
  · exact Or.inl (takeWhile_label h).symm
  · have hfirst : firstLabel name = label := by rw [firstLabel, hname, takeWhile_first hlabel]
    rw [hfirst]
    by_cases hrest : rest = []
    · exact Or.inr (Or.inl (by rw [hname, hrest]))
    · exact Or.inr (Or.inr ⟨rest, hrest, hname⟩)

theorem below_first (name : Key) :
    ((ruleOf name).below (firstLabel name)).toList =
      ownRule name ++ rulesOf (nextNames name []) := by
  have hdot := dot_not_mem_firstLabel name
  have hcases := firstLabel_cases name
  unfold ownRule nextNames labelLen
  generalize firstLabel name = label at hdot hcases ⊢
  rcases hcases with hdata | hdata | ⟨r, hr, hdata⟩
  · simp [Rule.below, ruleOf, hdata, nameLabels_label hdot, rulesOf]
  · simp [Rule.below, ruleOf, hdata, nameLabels_dot hdot, rulesOf]
  · obtain ⟨first, rest, hrest⟩ : ∃ first rest, (nameLabels r).1 = first :: rest :=
      ⟨_, nameLabels_head (plainKey r 0 0)⟩
    have hlt : label.length < name.data.length := by
      rw [hdata, List.length_append, List.length_cons]
      omega
    have hlen : name.data.length ≠ label.length + 1 := by
      rw [hdata, List.length_append, List.length_cons]
      have := List.length_pos_iff.mpr hr
      omega
    have hdrop : name.data.drop (label.length + 1) = r := by rw [hdata, drop_first]
    have hlabels : nameLabels name.data = (label :: (nameLabels r).1, (nameLabels r).2) := by
      rw [hdata, nameLabels_cons hdot hr]
    simp [Rule.below, ruleOf, hlabels, hlt, hlen, hdrop, hrest, rulesOf, plainKey]

theorem nextNames_append (name : Key) (others : List Key) :
    nextNames name others = nextNames name [] ++
      others.map fun other => plainKey (other.data.drop ((firstLabel name).length + 1)) 0 other.value := by
  simp [nextNames]

-- The rules below the label of a group are the rule of its first name, if that ends there, and the names of the
-- next level.
theorem Group.below_eq {name : Key} {others rest : List Key} (h : Group name others rest) :
    below (firstLabel name) (rulesOf (name :: (others ++ rest))) =
      ownRule name ++ rulesOf (nextNames name others) := by
  have hothers := h.below_others
  have hrest := below_rest h.outside
  have hsplit : below (firstLabel name) (rulesOf (name :: (others ++ rest))) =
      ((ruleOf name).below (firstLabel name)).toList ++ (below (firstLabel name) (rulesOf others) ++
        below (firstLabel name) (rulesOf rest)) := by
    simp only [below, rulesOf, List.map_cons, List.map_append, List.filterMap_cons, List.filterMap_append]
    cases (ruleOf name).below (firstLabel name) <;> rfl
  rw [hsplit, hothers, hrest, List.append_nil, below_first, List.append_assoc, nextNames_append name others]
  simp only [rulesOf, List.map_append]

theorem Group.below_of_ne {name : Key} {others rest : List Key} (h : Group name others rest) {label : Bytes}
    (hne : firstLabel name ≠ label) :
    below label (rulesOf (name :: (others ++ rest))) = below label (rulesOf rest) := by
  have hothers : below label (rulesOf others) = [] := by
    apply below_rest
    intro other hmem
    obtain ⟨r, -, hdata⟩ := h.members other hmem
    rw [firstLabel, hdata, takeWhile_first (dot_not_mem_firstLabel name)]
    exact hne
  simp only [below, rulesOf, List.map_cons, List.map_append, List.filterMap_cons, List.filterMap_append] at hothers ⊢
  rw [below_ruleOf_of_ne hne, hothers]
  rfl

-- The names of the next level, with the label in front of them again, are names of this one.
theorem Group.next_sublist {name : Key} {others rest : List Key} (h : Group name others rest) :
    ((nextNames name others).map fun n => (firstLabel name ++ dot :: n.data, n.value)).Sublist
        ((name :: (others ++ rest)).map fun n => (n.data, n.value)) ∧
      ∀ n ∈ nextNames name others, n.data ≠ [] := by
  have hfirst : ((nextNames name []).map fun n =>
        (firstLabel name ++ dot :: n.data, n.value)).Sublist [(name.data, name.value)] ∧
      ∀ n ∈ nextNames name [], n.data ≠ [] := by
    have hcases := firstLabel_cases name
    unfold nextNames labelLen
    generalize firstLabel name = label at hcases ⊢
    rcases hcases with hdata | hdata | ⟨r, hr, hdata⟩
    · simp [hdata]
    · simp [hdata]
    · have hdrop : name.data.drop (label.length + 1) = r := by rw [hdata, drop_first]
      have hlt : label.length < name.data.length := by
        rw [hdata, List.length_append, List.length_cons]
        omega
      have hlen : name.data.length ≠ label.length + 1 := by
        rw [hdata, List.length_append, List.length_cons]
        have := List.length_pos_iff.mpr hr
        omega
      simp only [hlt, if_true, hlen, ne_eq, not_false_eq_true, hdrop, List.map_nil, List.append_nil,
        List.map_cons, plainKey, ← hdata]
      exact ⟨List.Sublist.refl _, by simpa using hr⟩
  have hothers : (others.map fun other =>
        (firstLabel name ++ dot :: other.data.drop ((firstLabel name).length + 1), other.value)) =
      others.map fun n => (n.data, n.value) := by
    apply List.map_congr_left
    intro other hmem
    obtain ⟨r, -, hdata⟩ := h.members other hmem
    rw [hdata, drop_first]
  rw [nextNames_append]
  constructor
  · rw [List.map_append, List.map_map, List.map_cons, List.map_append]
    have htail : (others.map fun n => (n.data, n.value)).Sublist
        ((others.map fun n => (n.data, n.value)) ++ rest.map fun n => (n.data, n.value)) :=
      List.sublist_append_left _ _
    exact hfirst.1.append (hothers ▸ htail)
  · intro n hn
    rcases List.mem_append.mp hn with hn | hn
    · exact hfirst.2 n hn
    · obtain ⟨other, hother, rfl⟩ := List.mem_map.mp hn
      obtain ⟨r, hr, hdata⟩ := h.members other hother
      simp only [plainKey, hdata, drop_first]
      exact hr

theorem Level.next {name : Key} {others rest : List Key} (h : Level (name :: (others ++ rest)))
    (hgroup : Group name others rest) : Level (nextNames name others) := by
  obtain ⟨hsub, hne⟩ := hgroup.next_sublist
  have hdot := dot_not_mem_firstLabel name
  have hback : ∀ n ∈ nextNames name others, ∃ m ∈ name :: (others ++ rest),
      m.data = firstLabel name ++ dot :: n.data ∧ m.value = n.value := by
    intro n hn
    have hmem := hsub.subset (List.mem_map_of_mem hn)
    obtain ⟨m, hm, heq⟩ := List.mem_map.mp hmem
    exact ⟨m, hm, (Prod.mk.inj heq).1, (Prod.mk.inj heq).2⟩
  constructor
  · apply Grouped.of_map_cons
    have hlabels := hsub.map fun p : Bytes × Nat => (nameLabels p.1).1
    rw [List.map_map, List.map_map] at hlabels
    have heq : (nextNames name others).map
          ((fun p : Bytes × Nat => (nameLabels p.1).1) ∘ fun n => (firstLabel name ++ dot :: n.data, n.value)) =
        (nextNames name others).map ((firstLabel name :: ·) ∘ fun n => (nameLabels n.data).1) := by
      apply List.map_congr_left
      intro n hn
      simp only [Function.comp_apply, nameLabels_cons hdot (hne n hn)]
    rw [heq] at hlabels
    rw [List.map_map]
    exact h.grouped.sublist hlabels
  · have hnul : ((name :: (others ++ rest)).map fun n => (n.data, n.value)).Pairwise
        fun a b => NulApart a.1 b.1 := List.pairwise_map.mpr h.nul
    have hnext := List.pairwise_map.mp (hnul.sublist hsub)
    exact hnext.imp fun hab => NulApart.of_append (p := firstLabel name ++ [dot]) (by simpa using hab)
  · intro n hn
    obtain ⟨m, hm, hdata, -⟩ := hback n hn
    have hlower := h.lower m hm
    rw [hdata, List.map_append, List.map_cons] at hlower
    have hlen : ((firstLabel name).map tolower).length = (firstLabel name).length := List.length_map _
    exact (List.cons.inj (List.append_inj_right hlower hlen)).2
  · intro n hn
    obtain ⟨m, hm, -, hvalue⟩ := hback n hn
    rw [← hvalue]
    exact h.values m hm

end Nginx.Hash
