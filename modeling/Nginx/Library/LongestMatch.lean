import Mathlib

-- Rules that match the sequences starting with their labels. Of the rules that match, the longest one decides.
namespace LongestMatch

-- A strict rule needs a label more than its own.
structure Rule (α β : Type) where
  labels : List α
  strict : Bool
  value : β
  deriving DecidableEq, Repr

variable {α β : Type}

def Rule.Matches (rule : Rule α β) (labels : List α) : Prop :=
  rule.labels <+: labels ∧ (rule.strict = true → rule.labels.length < labels.length)

def Distinct (rules : List (Rule α β)) : Prop := (rules.map Rule.labels).Nodup

-- The value of the rule without labels, which decides when no other rule matches.
def own (rules : List (Rule α β)) : Option (Rule α β) := rules.find? fun rule => rule.labels = []

theorem own_eq_some {rules : List (Rule α β)} {rule : Rule α β} (h : Distinct rules) (hmem : rule ∈ rules)
    (hlabels : rule.labels = []) : own rules = some rule := by
  induction rules with
  | nil => cases hmem
  | cons first rules ih =>
      rw [own, List.find?_cons]
      rcases List.mem_cons.mp hmem with rfl | hmem
      · simp [hlabels]
      · have hne : first.labels ≠ [] := by
          intro hempty
          apply (List.nodup_cons.mp h).1
          rw [hempty, ← hlabels]
          exact List.mem_map_of_mem hmem
        simp only [hne, decide_false]
        exact ih (List.nodup_cons.mp h).2 hmem

theorem own_mem {rules : List (Rule α β)} {rule : Rule α β} (h : own rules = some rule) :
    rule ∈ rules ∧ rule.labels = [] :=
  ⟨List.mem_of_find?_eq_some h, by simpa using List.find?_some h⟩

theorem own_eq_none {rules : List (Rule α β)} : own rules = none ↔ ∀ rule ∈ rules, rule.labels ≠ [] := by
  simp [own, List.find?_eq_none]

theorem matches_cons {rule : Rule α β} {label : α} {labels : List α} :
    { rule with labels := label :: rule.labels }.Matches (label :: labels) ↔ rule.Matches labels := by
  simp [Rule.Matches]

variable [DecidableEq α]

instance (rule : Rule α β) (labels : List α) : Decidable (rule.Matches labels) :=
  inferInstanceAs (Decidable (_ ∧ _))

def Rule.below (label : α) (rule : Rule α β) : Option (Rule α β) :=
  match rule.labels with
  | [] => none
  | first :: rest => if first = label then some { rule with labels := rest } else none

-- The rules whose first label is given, without it
def below (label : α) (rules : List (Rule α β)) : List (Rule α β) := rules.filterMap (Rule.below label)

def best : List α → List (Rule α β) → Option β
  | [], rules =>
      match own rules with
      | some rule => if rule.strict then none else some rule.value
      | none => none
  | label :: labels, rules =>
      match best labels (below label rules) with
      | some value => some value
      | none => (own rules).map Rule.value

theorem below_eq_some {label : α} {rule rule' : Rule α β} :
    rule.below label = some rule' ↔ rule.labels = label :: rule'.labels ∧ rule.strict = rule'.strict ∧
      rule.value = rule'.value := by
  obtain ⟨labels, strict, value⟩ := rule
  obtain ⟨labels', strict', value'⟩ := rule'
  cases labels with
  | nil => simp [Rule.below]
  | cons first rest =>
      by_cases h : first = label
      · simp [Rule.below, h]
      · simp [Rule.below, h]

theorem mem_below {label : α} {rules : List (Rule α β)} {rule : Rule α β} :
    rule ∈ below label rules ↔ { rule with labels := label :: rule.labels } ∈ rules := by
  rw [below, List.mem_filterMap]
  constructor
  · rintro ⟨rule', hmem, hbelow⟩
    obtain ⟨hlabels, hstrict, hvalue⟩ := below_eq_some.mp hbelow
    obtain ⟨labels', strict', value'⟩ := rule'
    simp only at hlabels hstrict hvalue
    rw [hlabels, hstrict, hvalue] at hmem
    exact hmem
  · intro hmem
    exact ⟨_, hmem, below_eq_some.mpr ⟨rfl, rfl, rfl⟩⟩

theorem Distinct.below {rules : List (Rule α β)} (h : Distinct rules) (label : α) :
    Distinct (below label rules) := by
  induction rules with
  | nil => exact List.nodup_nil
  | cons rule rules ih =>
      have hrules : Distinct rules := (List.nodup_cons.mp h).2
      have hfresh := (List.nodup_cons.mp h).1
      rw [LongestMatch.below, List.filterMap_cons]
      cases hbelow : rule.below label with
      | none => exact ih hrules
      | some rule' =>
          refine List.nodup_cons.mpr ⟨?_, ih hrules⟩
          intro hmem
          obtain ⟨other, hother, hlabels⟩ := List.mem_map.mp hmem
          apply hfresh
          rw [(below_eq_some.mp hbelow).1, ← hlabels]
          exact List.mem_map_of_mem (mem_below.mp hother)

theorem best_eq_none {rules : List (Rule α β)} {labels : List α} (h : ∀ rule ∈ rules, ¬rule.Matches labels) :
    best labels rules = none := by
  induction labels generalizing rules with
  | nil =>
      rw [best]
      cases hown : own rules with
      | none => rfl
      | some rule =>
          obtain ⟨hmem, hlabels⟩ := own_mem hown
          have hno := h rule hmem
          have hstrict : rule.strict = true := by
            by_contra hfalse
            exact hno ⟨by rw [hlabels], fun htrue => absurd htrue hfalse⟩
          simp [hstrict]
  | cons label labels ih =>
      have hbelow : best labels (below label rules) = none := by
        apply ih
        intro rule hmem hmatches
        exact h _ (mem_below.mp hmem) (matches_cons.mpr hmatches)
      have hown : own rules = none := by
        rw [own_eq_none]
        intro rule hmem hempty
        exact h rule hmem ⟨by simp [hempty], by simp [hempty]⟩
      rw [best, hbelow, hown]
      rfl

-- The longest of the rules that match gives the value.
theorem best_eq_some {rules : List (Rule α β)} {rule : Rule α β} {labels : List α} (h : Distinct rules)
    (hmem : rule ∈ rules) (hmatches : rule.Matches labels)
    (hlongest : ∀ other ∈ rules, other.Matches labels → other.labels.length ≤ rule.labels.length) :
    best labels rules = some rule.value := by
  induction labels generalizing rules rule with
  | nil =>
      have hempty : rule.labels = [] := List.prefix_nil.mp hmatches.1
      have hstrict : rule.strict = false := by
        by_contra htrue
        have hlt := hmatches.2 (by simpa using htrue)
        simp at hlt
      rw [best, own_eq_some h hmem hempty]
      simp [hstrict]
  | cons label labels ih =>
      obtain ⟨ruleLabels, strict, value⟩ := rule
      cases ruleLabels with
      | nil =>
          have hbelow : best labels (below label rules) = none := by
            apply best_eq_none
            intro other hother hothers
            have hle := hlongest _ (mem_below.mp hother) (matches_cons.mpr hothers)
            simp at hle
          rw [best, hbelow, own_eq_some h hmem rfl]
          rfl
      | cons first rest =>
          obtain rfl : first = label := (List.cons_prefix_cons.mp hmatches.1).1
          have hrest := @ih _ ⟨rest, strict, value⟩ (h.below first) (mem_below.mpr hmem)
            (matches_cons.mp hmatches) (by
              intro other hother hothers
              have hle := hlongest _ (mem_below.mp hother) (matches_cons.mpr hothers)
              simpa using hle)
          rw [best, hrest]

-- A list where the sequences with a common beginning stand together, and what they begin with stands first.
structure Grouped (l : List (List α)) : Prop where
  between : ∀ a b c, [a, b, c].Sublist l → ∀ p, p ≠ [] → p <+: a → p <+: c → p <+: b
  first : ∀ a b, [a, b].Sublist l → ¬b <+: a

omit [DecidableEq α] in
theorem Grouped.sublist {l l' : List (List α)} (h : Grouped l) (hsub : l'.Sublist l) : Grouped l' :=
  ⟨fun a b c habc => h.between a b c (habc.trans hsub), fun a b hab => h.first a b (hab.trans hsub)⟩

omit [DecidableEq α] in
theorem Grouped.of_map_cons {l : List (List α)} {label : α} (h : Grouped (l.map (label :: ·))) : Grouped l := by
  constructor
  · intro a b c habc p hp ha hc
    have hb := h.between (label :: a) (label :: b) (label :: c) (habc.map _) (label :: p) (by simp)
      (List.cons_prefix_cons.mpr ⟨rfl, ha⟩) (List.cons_prefix_cons.mpr ⟨rfl, hc⟩)
    exact (List.cons_prefix_cons.mp hb).2
  · intro a b hab hpre
    exact h.first (label :: a) (label :: b) (hab.map _) (List.cons_prefix_cons.mpr ⟨rfl, hpre⟩)

omit [DecidableEq α] in
theorem Grouped.distinct {rules : List (Rule α β)} (h : Grouped (rules.map Rule.labels)) : Distinct rules := by
  rw [Distinct, List.Nodup, List.pairwise_iff_forall_sublist]
  intro a b hab heq
  exact h.first a b hab (heq ▸ List.prefix_refl a)

end LongestMatch
