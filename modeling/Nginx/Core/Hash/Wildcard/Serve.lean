import Nginx.Core.Hash.Wildcard.Rules

namespace Nginx.Hash

open LongestMatch ByteMemory

-- A wildcard at the end of a name always stands for something.
def strictly (rule : Rule Bytes Nat) : Rule Bytes Nat := { rule with strict := true }

-- What a walk gives for some labels: the value of the longest rule that matches, or else nothing of its own. The
-- caller has the value of the hash for that case.
structure Answered (labels : List Bytes) (rules : List (Rule Bytes Nat)) (value : Nat) (found : Option Nat) :
    Prop where
  matched : ∀ v, best labels rules = some v → found = some v
  unmatched : best labels rules = none → found = some 0 ∨ found = some value

structure Serves (heap : Heap) (table : Table) (mem : Memory) (rules : List (Rule Bytes Nat)) : Prop where
  head : ∀ value labels, labels ≠ [] →
    Answered labels rules value (headWalk heap ⟨table, mem, value⟩ labels)
  tail : (∀ rule ∈ rules, rule.strict = false) → ∀ value labels, labels ≠ [] →
    Answered labels (rules.map strictly) value (tailWalk heap ⟨table, mem, value⟩ labels)

-- What the element of a label stands for, given the rules below the label.
inductive Entry (heap : Heap) : Nat → List (Rule Bytes Nat) → Prop where
  | missing : Entry heap 0 []
  | leaf (strict : Bool) (value : Nat) : value ≠ 0 → value % 4 = 0 →
      Entry heap (if strict then value ||| 1 else value) [⟨[], strict, value⟩]
  | plain (address value : Nat) (table : Table) (mem : Memory) (next : List (Rule Bytes Nat)) :
      address ≠ 0 → address % 4 = 0 → heap.lookup address = some ⟨table, mem, value⟩ → value ≠ 0 →
      (∀ rule ∈ next, rule.labels ≠ [] ∧ rule.value ≠ 0) → Serves heap table mem next →
      Entry heap (address ||| 2) (⟨[], false, value⟩ :: next)
  | strict (address value : Nat) (table : Table) (mem : Memory) (next : List (Rule Bytes Nat)) :
      address ≠ 0 → address % 4 = 0 → heap.lookup address = some ⟨table, mem, value⟩ → value ≠ 0 →
      (∀ rule ∈ next, rule.labels ≠ [] ∧ rule.value ≠ 0) → Serves heap table mem next →
      Entry heap (address ||| 3) (⟨[], true, value⟩ :: next)
  | inner (address : Nat) (table : Table) (mem : Memory) (next : List (Rule Bytes Nat)) :
      address ≠ 0 → address % 4 = 0 → heap.lookup address = some ⟨table, mem, 0⟩ →
      (∀ rule ∈ next, rule.labels ≠ [] ∧ rule.value ≠ 0) → Serves heap table mem next →
      Entry heap (address ||| 3) next

theorem or_tag {a tag : Nat} (ha : a % 4 = 0) (htag : tag < 4) : a ||| tag = a + tag := by
  obtain ⟨k, rfl⟩ : ∃ k, a = k <<< 2 := ⟨a / 4, by rw [Nat.shiftLeft_eq]; omega⟩
  exact (Nat.shiftLeft_add_eq_or_of_lt (i := 2) htag k).symm

theorem untag_or {a tag : Nat} (ha : a % 4 = 0) (htag : tag < 4) : untag (a ||| tag) = a := by
  rw [or_tag ha htag, untag]
  omega

theorem testBit_or_tag {a tag i : Nat} (ha : a % 4 = 0) (hi : i < 2) :
    (a ||| tag).testBit i = tag.testBit i := by
  obtain ⟨k, rfl⟩ : ∃ k, a = k <<< 2 := ⟨a / 4, by rw [Nat.shiftLeft_eq]; omega⟩
  rw [Nat.testBit_or, Nat.testBit_shiftLeft]
  have hge : ¬i ≥ 2 := by omega
  simp [hge]

theorem own_of_labels {rules : List (Rule Bytes Nat)} (h : ∀ rule ∈ rules, rule.labels ≠ []) : own rules = none :=
  own_eq_none.mpr h

theorem best_cons_of_labels {rules : List (Rule Bytes Nat)} (h : ∀ rule ∈ rules, rule.labels ≠ [])
    (label : Bytes) (labels : List Bytes) :
    best (label :: labels) rules = best labels (below label rules) := by
  rw [best, own_of_labels h]
  cases best labels (below label rules) <;> rfl

-- A rule without labels in front of others decides only when none of these matches.
theorem best_own_cons {next : List (Rule Bytes Nat)} (strict : Bool) (value : Nat) (label : Bytes)
    (labels : List Bytes) (h : ∀ rule ∈ next, rule.labels ≠ []) :
    best (label :: labels) (⟨[], strict, value⟩ :: next) = some ((best (label :: labels) next).getD value) := by
  have hbelow : below label ((⟨[], strict, value⟩ : Rule Bytes Nat) :: next) = below label next := rfl
  rw [best_cons_of_labels h, best, hbelow]
  cases best labels (below label next) <;> rfl

theorem best_nil_cons {next : List (Rule Bytes Nat)} (strict : Bool) (value : Nat) :
    best [] ((⟨[], strict, value⟩ : Rule Bytes Nat) :: next) = if strict then none else some value := rfl

theorem best_nil_of_labels {rules : List (Rule Bytes Nat)} (h : ∀ rule ∈ rules, rule.labels ≠ []) :
    best [] rules = none := by
  rw [best, own_of_labels h]

theorem best_empty (labels : List Bytes) : best labels ([] : List (Rule Bytes Nat)) = none :=
  best_eq_none (by simp)

theorem best_mem {labels : List Bytes} {rules : List (Rule Bytes Nat)} {v : Nat} (h : best labels rules = some v) :
    ∃ rule ∈ rules, rule.value = v := by
  induction labels generalizing rules v with
  | nil =>
      rw [best] at h
      split at h
      · rename_i rule hown
        split at h
        · cases h
        · exact ⟨rule, (own_mem hown).1, Option.some.inj h⟩
      · cases h
  | cons label labels ih =>
      rw [best] at h
      split at h
      · rename_i value hbest
        obtain ⟨rule, hmem, hvalue⟩ := ih hbest
        exact ⟨_, mem_below.mp hmem, by rw [← Option.some.inj h, ← hvalue]⟩
      · obtain ⟨rule, hown, hvalue⟩ := Option.map_eq_some_iff.mp h
        exact ⟨rule, (own_mem hown).1, hvalue⟩

theorem Answered.of_value {labels : List Bytes} {rules : List (Rule Bytes Nat)} {value v : Nat}
    (h : best labels rules = some v) : Answered labels rules value (some v) := by
  constructor
  · intro v' hv'
    rw [h] at hv'
    exact hv'
  · intro hnone
    rw [h] at hnone
    cases hnone

theorem Answered.of_none {labels : List Bytes} {rules : List (Rule Bytes Nat)} {value : Nat} {found : Option Nat}
    (h : best labels rules = none) (hfound : found = some 0 ∨ found = some value) :
    Answered labels rules value found := by
  constructor
  · intro v hv
    rw [h] at hv
    cases hv
  · intro _
    exact hfound

-- What a level makes of the answer of the next one.
def orValue (value : Nat) (found : Option Nat) : Option Nat := do
  let found ← found
  if found ≠ 0 then some found else some value

theorem orValue_eq {labels : List Bytes} {next : List (Rule Bytes Nat)} {value : Nat} {found : Option Nat}
    (h : Answered labels next value found) (hvalues : ∀ rule ∈ next, rule.value ≠ 0) :
    orValue value found = some ((best labels next).getD value) := by
  cases hbest : best labels next with
  | some v =>
      obtain ⟨rule, hmem, rfl⟩ := best_mem hbest
      rw [h.matched _ hbest]
      simp [orValue, hvalues rule hmem]
  | none =>
      rcases h.unmatched hbest with hfound | hfound
      · simp [orValue, hfound]
      · rw [hfound]
        by_cases hzero : value = 0
        · simp [orValue, hzero]
        · simp [orValue, hzero]

theorem headWalk_cons (heap : Heap) (hwc : Wildcard) (label : Bytes) (rest : List Bytes) {value : Nat}
    (hfind : hwc.find (hashKey label) label = some value) :
    headWalk heap hwc (label :: rest) =
      if value = 0 then some hwc.value
      else if value.testBit 1 then
        if rest = [] then
          if value.testBit 0 then some 0 else (heap.lookup (untag value)).map Wildcard.value
        else (heap.lookup (untag value)).bind fun hwc => orValue hwc.value (headWalk heap hwc rest)
      else if value.testBit 0 then
        if rest = [] then some 0 else some (untag value)
      else some value := by
  rw [headWalk, hfind]
  rfl

theorem tailWalk_cons (heap : Heap) (hwc : Wildcard) (label : Bytes) (rest : List Bytes) {value : Nat}
    (hfind : hwc.find (hashKey label) label = some value) (hrest : rest ≠ []) :
    tailWalk heap hwc (label :: rest) =
      if value = 0 then some hwc.value
      else if value.testBit 1 then
        (heap.lookup (untag value)).bind fun hwc => orValue hwc.value (tailWalk heap hwc rest)
      else some value := by
  rw [tailWalk, if_neg hrest, hfind]
  rfl

theorem leaf_tag {value : Nat} (hvalue : value % 4 = 0) (hne : value ≠ 0) (strict : Bool) :
    (if strict then value ||| 1 else value) ≠ 0 ∧
      (if strict then value ||| 1 else value).testBit 1 = false ∧
      (if strict then value ||| 1 else value).testBit 0 = strict ∧
      untag (if strict then value ||| 1 else value) = value := by
  have hzero : value = value ||| 0 := (Nat.or_zero value).symm
  cases strict
  · simp only [Bool.false_eq_true, if_false]
    refine ⟨hne, ?_, ?_, ?_⟩
    · rw [hzero, testBit_or_tag hvalue (by decide)]
      rfl
    · rw [hzero, testBit_or_tag hvalue (by decide)]
      rfl
    · rw [untag]
      omega
  · simp only [if_true]
    refine ⟨?_, ?_, ?_, untag_or hvalue (by decide)⟩
    · rw [or_tag hvalue (by decide)]
      omega
    · rw [testBit_or_tag hvalue (by decide)]
      rfl
    · rw [testBit_or_tag hvalue (by decide)]
      rfl

theorem node_tag (tag : Nat) {address : Nat} (haddress : address % 4 = 0) (hne : address ≠ 0) (htag : tag < 4) :
    address ||| tag ≠ 0 ∧ (address ||| tag).testBit 1 = tag.testBit 1 ∧
      (address ||| tag).testBit 0 = tag.testBit 0 ∧ untag (address ||| tag) = address := by
  refine ⟨?_, testBit_or_tag haddress (by decide), testBit_or_tag haddress (by decide),
    untag_or haddress htag⟩
  rw [or_tag haddress htag]
  omega

-- One label of the walk from the end, given what its element stands for
theorem headWalk_entry {heap : Heap} {table : Table} {mem : Memory} {rules : List (Rule Bytes Nat)} {e : Nat}
    (hlabels : ∀ rule ∈ rules, rule.labels ≠ []) (label : Bytes) (rest : List Bytes) (value : Nat)
    (hfind : (Wildcard.mk table mem value).find (hashKey label) label = some e)
    (hentry : Entry heap e (below label rules)) :
    Answered (label :: rest) rules value (headWalk heap ⟨table, mem, value⟩ (label :: rest)) := by
  have hbest := best_cons_of_labels hlabels label rest
  rw [headWalk_cons heap _ label rest hfind]
  generalize below label rules = sub at hbest hentry
  cases hentry with
  | missing =>
      rw [best_empty] at hbest
      exact Answered.of_none hbest (Or.inr (if_pos rfl))
  | leaf strict v hne hv =>
      obtain ⟨h0, h1, h2, h3⟩ := leaf_tag hv hne strict
      simp only [if_neg h0, h1, h2, h3, Bool.false_eq_true, if_false]
      cases rest with
      | nil =>
          rw [best_nil_cons] at hbest
          cases strict
          · exact Answered.of_value hbest
          · exact Answered.of_none hbest (Or.inl rfl)
      | cons next rest =>
          rw [best_own_cons strict v next rest (by simp), best_empty] at hbest
          cases strict
          · exact Answered.of_value hbest
          · exact Answered.of_value hbest
  | plain address v table' mem' next hne haddress hlookup hv hnext hserves =>
      obtain ⟨h0, h1, h2, h3⟩ := node_tag 2 haddress hne (by decide)
      have htrue : Nat.testBit 2 1 = true := rfl
      have hfalse : Nat.testBit 2 0 = false := rfl
      simp only [if_neg h0, h1, h2, h3, htrue, hfalse, if_true, Bool.false_eq_true, if_false, hlookup]
      cases rest with
      | nil => exact Answered.of_value hbest
      | cons l rest =>
          rw [best_own_cons false v l rest fun rule hrule => (hnext rule hrule).1] at hbest
          have hor := orValue_eq (hserves.head v (l :: rest) (by simp)) fun rule hrule => (hnext rule hrule).2
          simp only [reduceCtorEq, if_false, Option.bind_some, hor]
          exact Answered.of_value hbest
  | strict address v table' mem' next hne haddress hlookup hv hnext hserves =>
      obtain ⟨h0, h1, h2, h3⟩ := node_tag 3 haddress hne (by decide)
      have htrue : Nat.testBit 3 1 = true := rfl
      have htrue' : Nat.testBit 3 0 = true := rfl
      simp only [if_neg h0, h1, h2, h3, htrue, htrue', if_true, hlookup]
      cases rest with
      | nil => exact Answered.of_none hbest (Or.inl rfl)
      | cons l rest =>
          rw [best_own_cons true v l rest fun rule hrule => (hnext rule hrule).1] at hbest
          have hor := orValue_eq (hserves.head v (l :: rest) (by simp)) fun rule hrule => (hnext rule hrule).2
          simp only [reduceCtorEq, if_false, Option.bind_some, hor]
          exact Answered.of_value hbest
  | inner address table' mem' next hne haddress hlookup hnext hserves =>
      obtain ⟨h0, h1, h2, h3⟩ := node_tag 3 haddress hne (by decide)
      have htrue : Nat.testBit 3 1 = true := rfl
      have htrue' : Nat.testBit 3 0 = true := rfl
      simp only [if_neg h0, h1, h2, h3, htrue, htrue', if_true, hlookup]
      cases rest with
      | nil =>
          rw [best_nil_of_labels fun rule hrule => (hnext rule hrule).1] at hbest
          exact Answered.of_none hbest (Or.inl rfl)
      | cons l rest =>
          have hor := orValue_eq (hserves.head 0 (l :: rest) (by simp)) fun rule hrule => (hnext rule hrule).2
          simp only [reduceCtorEq, if_false, Option.bind_some, hor]
          cases hnested : best (l :: rest) sub with
          | some v => exact Answered.of_value (hbest.trans hnested)
          | none => exact Answered.of_none (hbest.trans hnested) (Or.inl rfl)

theorem below_strictly (label : Bytes) (rules : List (Rule Bytes Nat)) :
    below label (rules.map strictly) = (below label rules).map strictly := by
  rw [below, List.filterMap_map, below, List.map_filterMap]
  apply List.filterMap_congr
  intro rule _
  obtain ⟨labels, strict, value⟩ := rule
  cases labels with
  | nil => rfl
  | cons first rest =>
      by_cases h : first = label
      · simp [Rule.below, strictly, h]
      · simp [Rule.below, strictly, h]

theorem best_nil_strictly (rules : List (Rule Bytes Nat)) : best [] (rules.map strictly) = none := by
  rw [best]
  split
  · rename_i rule hown
    obtain ⟨rule', -, rfl⟩ := List.mem_map.mp (own_mem hown).1
    rfl
  · rfl

-- One label of the walk from the start
theorem tailWalk_entry {heap : Heap} {table : Table} {mem : Memory} {rules : List (Rule Bytes Nat)} {e : Nat}
    (hlabels : ∀ rule ∈ rules, rule.labels ≠ []) (hstrict : ∀ rule ∈ rules, rule.strict = false) (label : Bytes)
    (rest : List Bytes) (value : Nat) (hfind : (Wildcard.mk table mem value).find (hashKey label) label = some e)
    (hentry : Entry heap e (below label rules)) :
    Answered (label :: rest) (rules.map strictly) value (tailWalk heap ⟨table, mem, value⟩ (label :: rest)) := by
  have hmap : ∀ rule ∈ rules.map strictly, rule.labels ≠ [] := by
    intro rule hrule
    obtain ⟨rule', hrule', rfl⟩ := List.mem_map.mp hrule
    exact hlabels rule' hrule'
  have hbest := best_cons_of_labels hmap label rest
  rw [below_strictly] at hbest
  have hbelow : ∀ rule ∈ below label rules, rule.strict = false :=
    fun rule hrule => hstrict ⟨label :: rule.labels, rule.strict, rule.value⟩ (mem_below.mp hrule)
  cases rest with
  | nil =>
      rw [best_nil_strictly] at hbest
      exact Answered.of_none hbest (Or.inl (if_pos rfl))
  | cons l rest =>
      rw [tailWalk_cons heap _ label (l :: rest) hfind (by simp)]
      generalize below label rules = sub at hbest hentry hbelow
      cases hentry with
      | missing =>
          rw [List.map_nil, best_empty] at hbest
          exact Answered.of_none hbest (Or.inr (if_pos rfl))
      | leaf strict v hne hv =>
          have hfalse : strict = false := hbelow _ List.mem_cons_self
          obtain ⟨h0, h1, -, -⟩ := leaf_tag hv hne strict
          simp only [if_neg h0, h1, Bool.false_eq_true, if_false]
          rw [List.map_cons, List.map_nil, strictly, best_own_cons true v l rest (by simp), best_empty] at hbest
          rw [hfalse]
          exact Answered.of_value hbest
      | plain address v table' mem' next hne haddress hlookup hv hnext hserves =>
          obtain ⟨h0, h1, -, h3⟩ := node_tag 2 haddress hne (by decide)
          have htrue : Nat.testBit 2 1 = true := rfl
          simp only [if_neg h0, h1, h3, htrue, if_true, hlookup, Option.bind_some]
          have hnext' : ∀ rule ∈ next.map strictly, rule.labels ≠ [] ∧ rule.value ≠ 0 := by
            intro rule hrule
            obtain ⟨rule', hrule', rfl⟩ := List.mem_map.mp hrule
            exact hnext rule' hrule'
          rw [List.map_cons, strictly, best_own_cons true v l rest fun rule hrule => (hnext' rule hrule).1] at hbest
          have hanswered := hserves.tail (fun rule hrule => hbelow rule (List.mem_cons_of_mem _ hrule)) v (l :: rest)
            (by simp)
          rw [orValue_eq hanswered fun rule hrule => (hnext' rule hrule).2]
          exact Answered.of_value hbest
      | strict address v table' mem' next hne haddress hlookup hv hnext hserves =>
          exact absurd (hbelow _ List.mem_cons_self) (by simp)
      | inner address table' mem' next hne haddress hlookup hnext hserves =>
          obtain ⟨h0, h1, -, h3⟩ := node_tag 3 haddress hne (by decide)
          have htrue : Nat.testBit 3 1 = true := rfl
          simp only [if_neg h0, h1, h3, htrue, if_true, hlookup, Option.bind_some]
          have hvalues : ∀ rule ∈ sub.map strictly, rule.value ≠ 0 := by
            intro rule hrule
            obtain ⟨rule', hrule', rfl⟩ := List.mem_map.mp hrule
            exact (hnext rule' hrule').2
          rw [orValue_eq (hserves.tail hbelow 0 (l :: rest) (by simp)) hvalues]
          cases hnested : best (l :: rest) (sub.map strictly) with
          | some v => exact Answered.of_value (hbest.trans hnested)
          | none => exact Answered.of_none (hbest.trans hnested) (Or.inl rfl)

-- A table whose elements stand for what is below their labels answers both walks.
theorem serves_of_entries {heap : Heap} {table : Table} {mem : Memory} {rules : List (Rule Bytes Nat)}
    (hlabels : ∀ rule ∈ rules, rule.labels ≠ [])
    (h : ∀ label, ∃ e, Hash.find (table.placed.length + 1) table mem (hashKey label) label = some e ∧
      Entry heap e (below label rules)) : Serves heap table mem rules := by
  constructor
  · intro value labels hne
    obtain ⟨label, rest, rfl⟩ := List.exists_cons_of_ne_nil hne
    obtain ⟨e, hfind, hentry⟩ := h label
    exact headWalk_entry hlabels label rest value hfind hentry
  · intro hstrict value labels hne
    obtain ⟨label, rest, rfl⟩ := List.exists_cons_of_ne_nil hne
    obtain ⟨e, hfind, hentry⟩ := h label
    exact tailWalk_entry hlabels hstrict label rest value hfind hentry

end Nginx.Hash
