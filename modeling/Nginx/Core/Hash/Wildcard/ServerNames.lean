import Nginx.Core.Hash.Wildcard.Build
import Nginx.Core.Hash.Wildcard.Names

namespace Nginx.Hash

open LongestMatch

theorem exists_labels {front : List Bytes} (hne : front ≠ []) (h : ∀ label ∈ front, dot ∉ label) :
    ∃ name, labels name = front :=
  ⟨[dot].intercalate front, List.splitOn_intercalate dot h hne⟩

-- The labels of a host end with those of a name when the host is the name or has it behind a dot.
theorem labels_suffix_iff (name host : Bytes) :
    labels name <:+ labels host ↔ host = name ∨ dot :: name <:+ host := by
  constructor
  · rintro ⟨front, hfront⟩
    by_cases hnil : front = []
    · rw [hnil, List.nil_append] at hfront
      exact Or.inl (labels_injective hfront.symm)
    · obtain ⟨rest, hrest⟩ := exists_labels hnil fun label hlabel =>
        not_mem_of_mem_labels (hfront ▸ List.mem_append_left _ hlabel)
      rw [← hrest, ← labels_append] at hfront
      exact Or.inr ⟨rest, labels_injective hfront⟩
  · rintro (rfl | ⟨rest, rfl⟩)
    · exact List.suffix_refl _
    · rw [labels_append]
      exact List.suffix_append _ _

theorem labels_prefix_iff (name host : Bytes) :
    labels name <+: labels host ↔ host = name ∨ name ++ [dot] <+: host := by
  constructor
  · rintro ⟨back, hback⟩
    by_cases hnil : back = []
    · rw [hnil, List.append_nil] at hback
      exact Or.inl (labels_injective hback.symm)
    · obtain ⟨rest, hrest⟩ := exists_labels hnil fun label hlabel =>
        not_mem_of_mem_labels (hback ▸ List.mem_append_right _ hlabel)
      rw [← hrest, ← labels_append] at hback
      exact Or.inr ⟨rest, by rw [← labels_injective hback]; simp⟩
  · rintro (rfl | ⟨rest, rfl⟩)
    · exact List.prefix_refl _
    · rw [List.append_assoc, List.singleton_append, labels_append]
      exact List.prefix_append _ _

theorem labels_length_lt {name host : Bytes} (h : dot :: name <:+ host) :
    (labels name).length < (labels host).length := by
  obtain ⟨rest, rfl⟩ := h
  rw [labels_append, List.length_append]
  have hpos := List.length_pos_iff.mpr (labels_ne_nil rest)
  omega

theorem labels_length_lt' {name host : Bytes} (h : name ++ [dot] <+: host) :
    (labels name).length < (labels host).length := by
  obtain ⟨rest, rfl⟩ := h
  rw [List.append_assoc, List.singleton_append, labels_append, List.length_append]
  have hpos := List.length_pos_iff.mpr (labels_ne_nil rest)
  omega

-- Among names at the end of one host, the longer one has more labels.
theorem labels_length_le {a b host : Bytes} (ha : labels a <:+ labels host) (hb : labels b <:+ labels host)
    (hle : a.length ≤ b.length) : (labels a).length ≤ (labels b).length := by
  by_contra hlt
  rcases (labels_suffix_iff b a).mp (List.suffix_of_suffix_length_le hb ha (by omega)) with rfl | hsuffix
  · omega
  · have hlen := hsuffix.length_le
    rw [List.length_cons] at hlen
    omega

theorem labels_length_le' {a b host : Bytes} (ha : labels a <+: labels host) (hb : labels b <+: labels host)
    (hle : a.length ≤ b.length) : (labels a).length ≤ (labels b).length := by
  by_contra hlt
  rcases (labels_prefix_iff b a).mp (List.prefix_of_prefix_length_le hb ha (by omega)) with rfl | hpre
  · omega
  · have hlen := hpre.length_le
    rw [List.length_append, List.length_singleton] at hlen
    omega

theorem headRule_eq_some {name : Bytes × Nat} {rule : Rule Bytes Nat} (h : headRule name = some rule) :
    (pattern name.1).rank = 1 ∧ rule.labels = (labels (pattern name.1).text).reverse ∧ rule.value = name.2 ∧
      ∀ host, rule.Matches (labels host).reverse ↔ (pattern name.1).Covers host := by
  unfold headRule at h
  split at h
  · rename_i suffix hpattern
    cases h
    rw [hpattern]
    refine ⟨rfl, rfl, rfl, fun host => ?_⟩
    rw [Rule.Matches, List.reverse_prefix, labels_suffix_iff, List.length_reverse, List.length_reverse]
    constructor
    · rintro ⟨rfl | hsuffix, hlt⟩
      · exact absurd (hlt rfl) (Nat.lt_irrefl _)
      · exact hsuffix
    · intro hsuffix
      exact ⟨Or.inr hsuffix, fun _ => labels_length_lt hsuffix⟩
  · rename_i suffix hpattern
    cases h
    rw [hpattern]
    refine ⟨rfl, rfl, rfl, fun host => ?_⟩
    rw [Rule.Matches, List.reverse_prefix, labels_suffix_iff]
    exact ⟨fun hand => hand.1, fun hor => ⟨hor, by simp⟩⟩
  · cases h

theorem tailRule_eq_some {name : Bytes × Nat} {rule : Rule Bytes Nat} (h : tailRule name = some rule) :
    (pattern name.1).rank = 0 ∧ rule.labels = labels (pattern name.1).text ∧ rule.value = name.2 ∧
      rule.strict = false ∧ ∀ host, (strictly rule).Matches (labels host) ↔ (pattern name.1).Covers host := by
  unfold tailRule at h
  split at h
  · rename_i front hpattern
    cases h
    rw [hpattern]
    refine ⟨rfl, rfl, rfl, rfl, fun host => ?_⟩
    rw [Rule.Matches, strictly, labels_prefix_iff]
    constructor
    · rintro ⟨rfl | hpre, hlt⟩
      · exact absurd (hlt rfl) (Nat.lt_irrefl _)
      · exact hpre
    · intro hpre
      exact ⟨Or.inr hpre, fun _ => labels_length_lt' hpre⟩
  · cases h

-- What ngx_http_server_names has for an array of wildcards
inductive Serving (heap : Heap) (rules : List (Rule Bytes Nat)) : Option Wildcard → Prop where
  | nothing : rules = [] → Serving heap rules none
  | made (table : Table) (mem : ByteMemory.Memory) :
      Serves heap table mem rules → Serving heap rules (some ⟨table, mem, 0⟩)

theorem buildWildcards_spec {qsort : Qsort} {cacheline depth : Nat} {hinit : Init} {names : List Key}
    {pool pool' : Pool} {wc : Option Wildcard} (hcache : CachelineSize cacheline)
    (hlevel : Level (qsort.sort cmpDnsWildcards names)) (hsound : pool.Sound)
    (hrooms : Rooms cacheline hinit depth (qsort.sort cmpDnsWildcards names))
    (h : buildWildcards qsort cacheline hinit depth names pool = some (some (wc, pool'))) :
    Grows pool pool' ∧
      ∀ heap, Keeps pool'.heap heap → Serving heap (rulesOf (qsort.sort cmpDnsWildcards names)) wc := by
  unfold buildWildcards at h
  split at h
  · rename_i hempty
    cases h
    refine ⟨Grows.refl _, fun heap _ => Serving.nothing ?_⟩
    have hperm := qsort.perm cmpDnsWildcards names
    rw [hempty, List.perm_nil] at hperm
    rw [hempty, hperm]
    rfl
  · split at h
    · cases h
    · cases h
    · rename_i address pool₁ hmade
      cases h
      have hbuilt := wildcardInit_builds hcache hinit depth _ _ _ _ hlevel hsound hrooms hmade
      obtain ⟨table, mem, hlookup, hserves⟩ := hbuilt.serves
      refine ⟨hbuilt.grows, fun heap hkeeps => ?_⟩
      rw [hlookup]
      exact Serving.made table mem (hserves heap fun a hwc _ hlook => hkeeps a hwc hlook)

theorem Answered.zero {labels : List Bytes} {rules : List (Rule Bytes Nat)} {found : Option Nat}
    (h : Answered labels rules 0 found) : found = some ((best labels rules).getD 0) := by
  cases hbest : best labels rules with
  | some v => exact h.matched v hbest
  | none =>
      rcases h.unmatched hbest with hfound | hfound
      · exact hfound
      · exact hfound

theorem Serving.head {heap : Heap} {rules : List (Rule Bytes Nat)} {hash : Combined}
    (h : Serving heap rules hash.wcHead) (host : Bytes) :
    hash.findHead heap host = some ((best (labels host).reverse rules).getD 0) := by
  unfold Combined.findHead
  generalize hash.wcHead = wc at h ⊢
  cases h with
  | nothing hrules =>
      rw [hrules, best_empty]
      rfl
  | made table mem hserves =>
      dsimp only
      rw [findWcHead_eq heap _ _ host (Nat.lt_succ_self _)]
      exact (hserves.head 0 _ (by simpa using labels_ne_nil host)).zero

theorem Serving.tail {heap : Heap} {rules : List (Rule Bytes Nat)} {hash : Combined}
    (h : Serving heap rules hash.wcTail) (hstrict : ∀ rule ∈ rules, rule.strict = false) (host : Bytes) :
    hash.findTail heap host = some ((best (labels host) (rules.map strictly)).getD 0) := by
  unfold Combined.findTail
  generalize hash.wcTail = wc at h ⊢
  cases h with
  | nothing hrules =>
      rw [hrules, List.map_nil, best_empty]
      rfl
  | made table mem hserves =>
      dsimp only
      rw [findWcTail_eq heap _ _ host (Nat.lt_succ_self _)]
      exact (hserves.tail hstrict 0 _ (labels_ne_nil host)).zero

-- What the sorted array of wildcards must be for its hashes to be right: names with a common beginning of labels
-- stand together with the shortest one first, and no two of them are the same up to a NUL.
structure Sorted (names : List Key) : Prop where
  grouped : Grouped (names.map fun name => (nameLabels name.data).1)
  nul : names.Pairwise fun a b => NulApart a.data b.data

-- When the names of servers are served as they should be.
structure Fits (qsort : Qsort) (cacheline : Nat) (hinit : Init) (depth : Nat) (names : List (Bytes × Nat)) :
    Prop where
  copied : ∀ name ∈ names, Copied name
  exact : Room cacheline hinit (names.filterMap exactKey)
  head : Sorted (qsort.sort cmpDnsWildcards (names.filterMap headKey))
  headRooms : Rooms cacheline hinit depth (qsort.sort cmpDnsWildcards (names.filterMap headKey))
  tail : Sorted (qsort.sort cmpDnsWildcards (names.filterMap tailKey))
  tailRooms : Rooms cacheline hinit depth (qsort.sort cmpDnsWildcards (names.filterMap tailKey))

-- The pointer to a server, whose two low bits are free for the tags
def Pointer (value : Nat) : Prop := value ≠ 0 ∧ value % 4 = 0 ∧ value < 2 ^ 64

theorem key_value {name : Bytes × Nat} {key : Key} (f : Bytes × Nat → Option Key)
    (hf : f = exactKey ∨ f = headKey ∨ f = tailKey) (h : f name = some key) : key.value = name.2 ∧ key.null = false := by
  rcases hf with rfl | rfl | rfl
  · unfold exactKey at h
    split at h
    · cases h
      exact ⟨rfl, rfl⟩
    · cases h
  · unfold headKey at h
    split at h
    · cases h
      exact ⟨rfl, rfl⟩
    · cases h
      exact ⟨rfl, rfl⟩
    · cases h
  · unfold tailKey at h
    split at h
    · cases h
      exact ⟨rfl, rfl⟩
    · cases h

theorem Sorted.level {qsort : Qsort} {names : List (Bytes × Nat)} (f : Bytes × Nat → Option Key)
    (hf : f = headKey ∨ f = tailKey) (h : Sorted (qsort.sort cmpDnsWildcards (names.filterMap f)))
    (hservers : ∀ name ∈ names, Pointer name.2) (hcopied : ∀ name ∈ names, Copied name) :
    Level (qsort.sort cmpDnsWildcards (names.filterMap f)) := by
  have hmem : ∀ key ∈ qsort.sort cmpDnsWildcards (names.filterMap f), ∃ name ∈ names, f name = some key := by
    intro key hkey
    exact List.mem_filterMap.mp ((qsort.perm cmpDnsWildcards _).mem_iff.mp hkey)
  refine ⟨h.grouped, h.nul, ?_, ?_⟩
  · intro key hkey
    obtain ⟨name, hname, hsome⟩ := hmem key hkey
    rcases hf with rfl | rfl
    · exact headKey_lower hsome
    · exact tailKey_lower (hcopied name hname) hsome
  · intro key hkey
    obtain ⟨name, hname, hsome⟩ := hmem key hkey
    rw [(key_value f (Or.inr hf) hsome).1]
    exact hservers name hname

theorem rulesOf_filterMap (qsort : Qsort) {names : List (Bytes × Nat)} {f : Bytes × Nat → Option Key}
    {g : Bytes × Nat → Option (Rule Bytes Nat)} (h : ∀ name ∈ names, (f name).map ruleOf = g name)
    (rule : Rule Bytes Nat) :
    rule ∈ rulesOf (qsort.sort cmpDnsWildcards (names.filterMap f)) ↔ ∃ name ∈ names, g name = some rule := by
  rw [rulesOf, ((qsort.perm cmpDnsWildcards (names.filterMap f)).map ruleOf).mem_iff, List.map_filterMap,
    List.mem_filterMap]
  constructor
  · rintro ⟨name, hname, hsome⟩
    exact ⟨name, hname, (h name hname).symm.trans hsome⟩
  · rintro ⟨name, hname, hsome⟩
    exact ⟨name, hname, (h name hname).trans hsome⟩

-- The leading wildcards: the longest one that covers the host, or NULL
theorem head_chosen {names : List (Bytes × Nat)} {rules : List (Rule Bytes Nat)} (hdistinct : Distinct rules)
    (hrules : ∀ rule, rule ∈ rules ↔ ∃ name ∈ names, headRule name = some rule) (host : Bytes) :
    (∀ name ∈ names, (pattern name.1).rank = 1 → (pattern name.1).Covers host →
        (∀ other ∈ names, (pattern other.1).rank = 1 → (pattern other.1).Covers host →
          (pattern other.1).text.length ≤ (pattern name.1).text.length) →
        best (labels host).reverse rules = some name.2) ∧
      ((∀ name ∈ names, (pattern name.1).rank = 1 → ¬(pattern name.1).Covers host) →
        best (labels host).reverse rules = none) := by
  constructor
  · intro name hname hrank hcovers hlongest
    obtain ⟨rule, hrule⟩ : ∃ rule, headRule name = some rule := by
      unfold headRule
      cases hpattern : pattern name.1 with
      | exact data => rw [hpattern] at hrank; cases hrank
      | star suffix => exact ⟨_, rfl⟩
      | dotted suffix => exact ⟨_, rfl⟩
      | trailing front => rw [hpattern] at hrank; cases hrank
    obtain ⟨-, hlabels, hvalue, hmatches⟩ := headRule_eq_some hrule
    rw [← hvalue]
    have hmatch := (hmatches host).mpr hcovers
    apply best_eq_some hdistinct ((hrules rule).mpr ⟨name, hname, hrule⟩) hmatch
    intro rule' hrule' hmatch'
    obtain ⟨other, hother, hsome⟩ := (hrules rule').mp hrule'
    obtain ⟨hrank', hlabels', -, hmatches'⟩ := headRule_eq_some hsome
    have hle := hlongest other hother hrank' ((hmatches' host).mp hmatch')
    have hpre := hmatch.1
    have hpre' := hmatch'.1
    rw [hlabels, List.reverse_prefix] at hpre
    rw [hlabels', List.reverse_prefix] at hpre'
    rw [hlabels, hlabels', List.length_reverse, List.length_reverse]
    exact labels_length_le hpre' hpre hle
  · intro hnone
    apply best_eq_none
    intro rule hrule hmatch
    obtain ⟨name, hname, hsome⟩ := (hrules rule).mp hrule
    obtain ⟨hrank, -, -, hmatches⟩ := headRule_eq_some hsome
    exact hnone name hname hrank ((hmatches host).mp hmatch)

theorem tail_chosen {names : List (Bytes × Nat)} {rules : List (Rule Bytes Nat)} (hdistinct : Distinct rules)
    (hrules : ∀ rule, rule ∈ rules ↔ ∃ name ∈ names, tailRule name = some rule) (host : Bytes) :
    (∀ name ∈ names, (pattern name.1).rank = 0 → (pattern name.1).Covers host →
        (∀ other ∈ names, (pattern other.1).rank = 0 → (pattern other.1).Covers host →
          (pattern other.1).text.length ≤ (pattern name.1).text.length) →
        best (labels host) (rules.map strictly) = some name.2) ∧
      ((∀ name ∈ names, (pattern name.1).rank = 0 → ¬(pattern name.1).Covers host) →
        best (labels host) (rules.map strictly) = none) := by
  have hdistinct' : Distinct (rules.map strictly) := by
    rw [Distinct, List.map_map]
    exact hdistinct
  constructor
  · intro name hname hrank hcovers hlongest
    obtain ⟨rule, hrule⟩ : ∃ rule, tailRule name = some rule := by
      unfold tailRule
      cases hpattern : pattern name.1 with
      | exact data => rw [hpattern] at hrank; cases hrank
      | star suffix => rw [hpattern] at hrank; cases hrank
      | dotted suffix => rw [hpattern] at hrank; cases hrank
      | trailing front => exact ⟨_, rfl⟩
    obtain ⟨-, hlabels, hvalue, -, hmatches⟩ := tailRule_eq_some hrule
    have hmem : strictly rule ∈ rules.map strictly := List.mem_map_of_mem ((hrules rule).mpr ⟨name, hname, hrule⟩)
    have hmatch := (hmatches host).mpr hcovers
    rw [← hvalue]
    apply best_eq_some hdistinct' hmem hmatch
    intro rule' hrule' hmatch'
    obtain ⟨rule₁, hrule₁, rfl⟩ := List.mem_map.mp hrule'
    obtain ⟨other, hother, hsome⟩ := (hrules rule₁).mp hrule₁
    obtain ⟨hrank', hlabels', -, -, hmatches'⟩ := tailRule_eq_some hsome
    have hle := hlongest other hother hrank' ((hmatches' host).mp hmatch')
    have hpre := hmatch.1
    have hpre' := hmatch'.1
    simp only [strictly, hlabels] at hpre
    simp only [strictly, hlabels'] at hpre'
    simp only [strictly, hlabels, hlabels']
    exact labels_length_le' hpre' hpre hle
  · intro hnone
    apply best_eq_none
    intro rule hrule hmatch
    obtain ⟨rule₁, hrule₁, rfl⟩ := List.mem_map.mp hrule
    obtain ⟨name, hname, hsome⟩ := (hrules rule₁).mp hrule₁
    obtain ⟨hrank, -, -, -, hmatches⟩ := tailRule_eq_some hsome
    exact hnone name hname hrank ((hmatches host).mp hmatch)

theorem exactKey_of_rank {name : Bytes × Nat} (h : (pattern name.1).rank = 2) (host : Bytes) :
    exactKey name = some (plainKey (pattern name.1).text (hashKey (pattern name.1).text) name.2) ∧
      ((pattern name.1).Covers host ↔ host = (pattern name.1).text) := by
  unfold exactKey
  cases hpattern : pattern name.1 with
  | exact data => exact ⟨rfl, Iff.rfl⟩
  | star suffix => rw [hpattern] at h; cases h
  | dotted suffix => rw [hpattern] at h; cases h
  | trailing front => rw [hpattern] at h; cases h

-- The empty name ends and begins with no name that has been accepted.
theorem not_covers_nil {p : Pattern} (h : p.Proper) (hrank : p.rank ≠ 2) : ¬p.Covers [] := by
  cases p with
  | exact data => exact absurd rfl hrank
  | star suffix => simp [Pattern.Covers]
  | dotted suffix => simpa [Pattern.Covers] using fun heq => h.1 heq
  | trailing front => simp [Pattern.Covers]

theorem serverNames_eq {qsort : Qsort} {cacheline depth : Nat} {hinit : Init} {names : List (Bytes × Nat)}
    {exact : Answers} {pool : Pool} {hash : Combined} {heap : Heap} {ha : KeysArrays}
    (hadded : addedAll .large names = some ha)
    (h : serverNames qsort cacheline hinit depth names exact pool = some (some (hash, heap))) :
    ∃ pool₁ pool₂, ((ha.keys = [] ∧ hash.hash = none) ∨ ∃ table mem, hash.hash = some (table, mem) ∧
          init cacheline hinit exact ha.keys pool.mem = some (some (table, mem))) ∧
      buildWildcards qsort cacheline hinit depth ha.dnsWcHead pool = some (some (hash.wcHead, pool₁)) ∧
      buildWildcards qsort cacheline hinit depth ha.dnsWcTail pool₁ = some (some (hash.wcTail, pool₂)) ∧
      pool₂.heap = heap := by
  simp only [serverNames, addNames_of_addedAll hadded] at h
  split at h
  · cases h
  · cases h
  · rename_i made hmade
    split at h
    · cases h
    · cases h
    · rename_i wcHead pool₁ hhead
      split at h
      · cases h
      · cases h
      · rename_i wcTail pool₂ htail
        cases h
        refine ⟨pool₁, pool₂, ?_, hhead, htail, rfl⟩
        split at hmade
        · rename_i hempty
          cases hmade
          exact Or.inl ⟨hempty, rfl⟩
        · obtain ⟨result, hinit, hmap⟩ := Option.map_eq_some_iff.mp hmade
          obtain ⟨⟨table, mem⟩, rfl, rfl⟩ := Option.map_eq_some_iff.mp hmap
          exact Or.inr ⟨table, mem, rfl, hinit⟩

-- The table of the exact names
theorem exact_chosen {names : List (Bytes × Nat)} {ha : KeysArrays} (hacc : Accepted names ha)
    (hservers : ∀ name ∈ names, Pointer name.2) {cacheline : Nat} (hcache : CachelineSize cacheline) {hinit : Init}
    {exact : Answers} (helts : exact.elts ≠ some 0) (hroom : Room cacheline hinit (names.filterMap exactKey))
    {mem mem' : ByteMemory.Memory} {table : Table}
    (hmade : init cacheline hinit exact ha.keys mem = some (some (table, mem'))) (host : Bytes) :
    (∀ name ∈ names, (pattern name.1).rank = 2 → (pattern name.1).Covers host →
        find (table.placed.length + 1) table mem' (hashKey host) host = some name.2) ∧
      ((∀ name ∈ names, (pattern name.1).rank = 2 → ¬(pattern name.1).Covers host) →
        find (table.placed.length + 1) table mem' (hashKey host) host = some 0) := by
  have hmem : ∀ key ∈ ha.keys, ∃ name ∈ names, exactKey name = some key :=
    fun key hkey => List.mem_filterMap.mp (hacc.keys ▸ hkey)
  have hnull : ∀ key ∈ ha.keys, key.null = false := by
    intro key hkey
    obtain ⟨name, -, hsome⟩ := hmem key hkey
    exact (key_value exactKey (Or.inl rfl) hsome).2
  have hfilter : (ha.keys.filter fun key => !key.null) = ha.keys := by
    rw [List.filter_eq_self]
    intro key hkey
    rw [hnull key hkey]
    rfl
  have hkeys : Keys ha.keys := by
    refine ⟨by rw [hfilter]; exact hacc.distinct, ?_, ?_, ?_⟩
    · intro key hkey _
      obtain ⟨name, -, hsome⟩ := hmem key hkey
      exact exactKey_lower hsome
    · intro key hkey _
      obtain ⟨name, hname, hsome⟩ := hmem key hkey
      rw [(key_value exactKey (Or.inl rfl) hsome).1]
      exact ⟨(hservers name hname).1, (hservers name hname).2.2⟩
    · intro key hkey _
      obtain ⟨name, -, hsome⟩ := hmem key hkey
      exact exactKey_hash hsome
  rw [← hacc.keys] at hroom
  have hagrees : Agrees ha.keys table mem' :=
    (init_agrees_iff hcache helts hkeys).mpr (Or.inr (Or.inr (Or.inr (Or.inr hroom)))) table mem' hmade
  have hlength : ha.keys.length < table.placed.length + 1 := by
    have helements := congrArg List.length hagrees.elements
    rw [hfilter, List.length_map] at helements
    omega
  constructor
  · intro name hname hrank hcovers
    obtain ⟨hsome, hiff⟩ := exactKey_of_rank hrank host
    rw [hiff.mp hcovers]
    have hkey : plainKey (pattern name.1).text (hashKey (pattern name.1).text) name.2 ∈ ha.keys := by
      rw [hacc.keys]
      exact List.mem_filterMap.mpr ⟨name, hname, hsome⟩
    exact hagrees.found _ hkey rfl _ hlength
  · intro hnone
    apply hagrees.missing host _ _ hlength
    intro key hkey _ heq
    obtain ⟨name, hname, hsome⟩ := hmem key hkey
    obtain ⟨data, hpattern⟩ : ∃ data, pattern name.1 = .exact data := by
      unfold exactKey at hsome
      split at hsome
      · rename_i data hpattern
        exact ⟨data, hpattern⟩
      · cases hsome
    have hrank : (pattern name.1).rank = 2 := by rw [hpattern]; rfl
    obtain ⟨hsome', hiff⟩ := exactKey_of_rank hrank host
    rw [hsome', Option.some_inj] at hsome
    apply hnone name hname hrank
    rw [hiff, ← heq, ← hsome]
    rfl

theorem Sorted.distinct {names : List Key} (h : Sorted names) : Distinct (rulesOf names) := by
  apply Grouped.distinct
  have hgrouped := h.grouped
  rw [rulesOf, List.map_map]
  exact hgrouped

-- What the three parts of the lookup find together
theorem findCombined_eq {heap : Heap} {hash : Combined} {host : Bytes} {exact head tail : Nat}
    (hexact : hash.findExact (hashKey host) host = some exact) (hhead : hash.findHead heap host = some head)
    (htail : hash.findTail heap host = some tail) :
    findCombined heap hash (hashKey host) host =
      some (if exact ≠ 0 then exact else if host = [] then 0 else if head ≠ 0 then head else tail) := by
  simp only [findCombined, hexact, hhead, htail, Option.bind_eq_bind, Option.bind_some]
  split
  · rfl
  · split
    · rfl
    · split <;> rfl

theorem AtLeast.rank_le {one two : Pattern} (h : one.AtLeast two) : two.rank ≤ one.rank := by
  rcases h with h | h
  · exact Nat.le_of_lt h
  · exact Nat.le_of_eq h.1

theorem AtLeast.length_le {one two : Pattern} (h : one.AtLeast two) (hrank : two.rank = one.rank) :
    two.text.length ≤ one.text.length := by
  rcases h with h | h
  · omega
  · exact h.2

-- The names of servers are served: exact names, then the longest leading wildcard, then the longest trailing one.
theorem findCombined_chosen {qsort : Qsort} {cacheline depth : Nat} {hinit : Init} {names : List (Bytes × Nat)}
    {exact : Answers} {pool : Pool} {hash : Combined} {heap : Heap} {ha : KeysArrays}
    (hcache : CachelineSize cacheline) (hservers : ∀ name ∈ names, Pointer name.2) (helts : exact.elts ≠ some 0)
    (hsound : pool.Sound) (hadded : addedAll .large names = some ha)
    (hmade : serverNames qsort cacheline hinit depth names exact pool = some (some (hash, heap)))
    (hfits : Fits qsort cacheline hinit depth names) (host : Bytes) :
    ∃ found, findCombined heap hash (hashKey host) host = some found ∧ Chosen names host found := by
  have hacc := accepted_of_addedAll hadded
  obtain ⟨pool₁, pool₂, hhash, hhead, htail, hheap⟩ := serverNames_eq hadded hmade
  rw [hacc.head] at hhead
  rw [hacc.tail] at htail
  have hheadLevel := hfits.head.level headKey (Or.inl rfl) hservers hfits.copied
  have htailLevel := hfits.tail.level tailKey (Or.inr rfl) hservers hfits.copied
  obtain ⟨hgrows₁, hserving₁⟩ := buildWildcards_spec hcache hheadLevel hsound hfits.headRooms hhead
  obtain ⟨hgrows₂, hserving₂⟩ :=
    buildWildcards_spec hcache htailLevel (hgrows₁.sound hsound) hfits.tailRooms htail
  rw [← hheap]
  have hheadRules := rulesOf_filterMap qsort fun name hname => headKey_rule (hacc.proper name hname)
  have htailRules := rulesOf_filterMap qsort fun name hname =>
    tailKey_rule (hacc.proper name hname) (hfits.copied name hname)
  have hstrict : ∀ rule ∈ rulesOf (qsort.sort cmpDnsWildcards (names.filterMap tailKey)), rule.strict = false := by
    intro rule hrule
    obtain ⟨name, -, hsome⟩ := (htailRules rule).mp hrule
    exact (tailRule_eq_some hsome).2.2.2.1
  have hheadFound := (hserving₁ _ hgrows₂.keeps).head host
  have htailFound := (hserving₂ pool₂.heap fun _ _ h => h).tail hstrict host
  obtain ⟨hlead, hnoLead⟩ := head_chosen hfits.head.distinct hheadRules host
  obtain ⟨htrail, hnoTrail⟩ := tail_chosen hfits.tail.distinct htailRules host
  obtain ⟨value, hvalue, hexact, hnoExact⟩ : ∃ value, hash.findExact (hashKey host) host = some value ∧
      (∀ name ∈ names, (pattern name.1).rank = 2 → (pattern name.1).Covers host → value = name.2) ∧
      ((∀ name ∈ names, (pattern name.1).rank = 2 → ¬(pattern name.1).Covers host) → value = 0) := by
    unfold Combined.findExact
    rcases hhash with ⟨hempty, hnone⟩ | ⟨table, mem, hsome, hinit⟩
    · rw [hnone]
      refine ⟨0, rfl, ?_, fun _ => rfl⟩
      intro name hname hrank _
      have hmem := List.mem_filterMap.mpr ⟨name, hname, (exactKey_of_rank hrank host).1⟩
      rw [← hacc.keys, hempty] at hmem
      cases hmem
    · rw [hsome]
      obtain ⟨hfound, hmissing⟩ := exact_chosen hacc hservers hcache helts hfits.exact hinit host
      by_cases hany : ∃ name ∈ names, (pattern name.1).rank = 2 ∧ (pattern name.1).Covers host
      · obtain ⟨name, hname, hrank, hcovers⟩ := hany
        refine ⟨name.2, hfound name hname hrank hcovers, ?_, fun hno => absurd hcovers (hno name hname hrank)⟩
        intro other hother hrank' hcovers'
        have heq := (hfound name hname hrank hcovers).symm.trans (hfound other hother hrank' hcovers')
        exact Option.some.inj heq
      · have hno : ∀ name ∈ names, (pattern name.1).rank = 2 → ¬(pattern name.1).Covers host :=
          fun name hname hrank hcovers => hany ⟨name, hname, hrank, hcovers⟩
        exact ⟨0, hmissing hno, fun name hname hrank hcovers => absurd hcovers (hno name hname hrank), fun _ => rfl⟩
  refine ⟨_, findCombined_eq hvalue hheadFound htailFound, ?_, ?_⟩
  · intro name hname hcovers hbest
    have hne := (hservers name hname).1
    have habove : ∀ r, (pattern name.1).rank < r → ∀ other ∈ names, (pattern other.1).rank = r →
        ¬(pattern other.1).Covers host := by
      intro r hr other hother hrank hcovers'
      have hle := AtLeast.rank_le (hbest other hother hcovers')
      omega
    have hlength : ∀ other ∈ names, (pattern other.1).rank = (pattern name.1).rank →
        (pattern other.1).Covers host → (pattern other.1).text.length ≤ (pattern name.1).text.length :=
      fun other hother hrank hcovers' => AtLeast.length_le (hbest other hother hcovers') hrank
    have hhost : (pattern name.1).rank ≠ 2 → host ≠ [] := by
      rintro hrank rfl
      exact not_covers_nil (hacc.proper name hname) hrank hcovers
    rcases hrank : (pattern name.1).rank with _ | _ | _ | r
    · rw [hrank] at habove hlength hhost
      rw [hnoExact (habove 2 (by decide)), hnoLead (habove 1 (by decide)),
        htrail name hname hrank hcovers hlength]
      simp [hhost (by decide)]
    · rw [hrank] at habove hlength hhost
      rw [hnoExact (habove 2 (by decide)), hlead name hname hrank hcovers hlength]
      simp [hhost (by decide), hne]
    · rw [hexact name hname hrank hcovers]
      simp [hne]
    · exfalso
      cases hpattern : pattern name.1 <;> rw [hpattern] at hrank <;> simp [Pattern.rank] at hrank
  · intro hnone
    rw [hnoExact fun name hname _ => hnone name hname, hnoLead fun name hname _ => hnone name hname,
      hnoTrail fun name hname _ => hnone name hname]
    simp

-- A sort of the C library
def insertionSort : Qsort where
  sort cmp l := (l.attach.insertionSort fun a b => cmp a.1 b.1 ≤ 0).map Subtype.val
  perm cmp l := by
    have hperm := (List.perm_insertionSort (fun a b : { x // x ∈ l } => cmp a.1 b.1 ≤ 0) l.attach).map Subtype.val
    rwa [List.attach_map_subtype_val] at hperm
  sorted cmp l h := by
    have htotal : Std.Total fun a b : { x // x ∈ l } => cmp a.1 b.1 ≤ 0 :=
      ⟨fun a b => h.total a.1 a.2 b.1 b.2⟩
    have htrans : IsTrans { x // x ∈ l } fun a b => cmp a.1 b.1 ≤ 0 :=
      ⟨fun a b c => h.trans a.1 a.2 b.1 b.2 c.1 c.2⟩
    exact List.Pairwise.map _ (fun _ _ hab => hab) (List.pairwise_insertionSort _ _)

def pageAnswers (n : Nat) : Answers := ⟨true, some (4096 * n), some (4096 * n + 1024)⟩

def freshPool : Pool := ⟨(List.range 8).map fun n => pageAnswers (n + 2), fun _ => 0, []⟩

theorem freshPool_sound : freshPool.Sound := ⟨by decide, by decide, by decide⟩

theorem sorted_singleton (key : Key) : Sorted [key] := by
  refine ⟨⟨?_, ?_⟩, List.pairwise_singleton _ _⟩
  · intro a b c h
    have hlen := h.length_le
    simp at hlen
  · intro a b h
    have hlen := h.length_le
    simp at hlen

def siteNames : List (Bytes × Nat) := [(ngxString "a.b", 4), (ngxString "*.b", 8), (ngxString "c.*", 12)]

theorem siteNames_fits : Fits insertionSort 64 ⟨512, 64⟩ 8 siteNames := by
  have hcache : CachelineSize 64 := ⟨6, by decide, by decide, rfl⟩
  have hsort : ∀ (names : List Key) (key : Key), names = [key] → eltSize key + 8 ≤ 64 →
      Sorted (insertionSort.sort cmpDnsWildcards names) ∧
        Rooms 64 ⟨512, 64⟩ 8 (insertionSort.sort cmpDnsWildcards names) := by
    intro names key hnames hsize
    have hperm := insertionSort.perm cmpDnsWildcards names
    rw [hnames] at hperm ⊢
    rw [List.perm_singleton.mp hperm]
    exact ⟨sorted_singleton key, rooms_of_small hcache (by decide) 8 (by simpa using hsize)⟩
  have hhead := hsort (siteNames.filterMap headKey) _ rfl (by decide)
  have htail := hsort (siteNames.filterMap tailKey) _ rfl (by decide)
  refine ⟨?_, ?_, hhead.1, hhead.2, htail.1, htail.2⟩
  · intro name hname front hfront
    have hcopied : ∀ name ∈ siteNames, cpystrn (pattern name.1).text (pattern name.1).text.length =
        (pattern name.1).text := by decide
    have hname := hcopied name hname
    rwa [hfront] at hname
  · apply room_of_small hcache (by decide)
    decide

theorem findCombined_chosen_site : ∃ hash heap found,
    serverNames insertionSort 64 ⟨512, 64⟩ 8 siteNames (pageAnswers 1) freshPool = some (some (hash, heap)) ∧
      findCombined heap hash (hashKey (ngxString "x.b")) (ngxString "x.b") = some found ∧
      Chosen siteNames (ngxString "x.b") found := by
  have hmade : ((serverNames insertionSort 64 ⟨512, 64⟩ 8 siteNames (pageAnswers 1) freshPool).bind id).isSome := by
    decide +kernel
  obtain ⟨⟨hash, heap⟩, hsome⟩ := Option.isSome_iff_exists.mp hmade
  obtain ⟨result, hresult, rfl⟩ := Option.bind_eq_some_iff.mp hsome
  obtain ⟨ha, hadded⟩ := Option.isSome_iff_exists.mp
    (show (addedAll .large siteNames).isSome = true by decide +kernel)
  obtain ⟨found, hfound, hchosen⟩ := findCombined_chosen ⟨6, by decide, by decide, rfl⟩
    (by simp only [Pointer]; decide +kernel) (by decide) freshPool_sound hadded hresult siteNames_fits (ngxString "x.b")
  exact ⟨hash, heap, found, hresult, hfound, hchosen⟩

-- A dot is compared as a space, so that it is not the lowest character: "com.a.x." stands behind the name with the
-- control character, away from "com.a".
def crossedNames : List (Bytes × Nat) :=
  [(ngxString ".a.com", 4), (ngxString "*.x.a.com", 8), (ngxString "*.a" ++ [1] ++ ngxString "b.com", 12)]

theorem crossed_names_served :
    ¬∀ (names : List (Bytes × Nat)) (ha : KeysArrays) (hash : Combined) (heap : Heap) (host : Bytes),
      (∀ name ∈ names, Pointer name.2) → addedAll .large names = some ha →
      serverNames insertionSort 64 ⟨512, 64⟩ 8 names (pageAnswers 1) freshPool = some (some (hash, heap)) →
      host.map tolower = host →
      ∃ found, findCombined heap hash (hashKey host) host = some found ∧ Chosen names host found := by
  intro h
  have hmade : ((serverNames insertionSort 64 ⟨512, 64⟩ 8 crossedNames (pageAnswers 1) freshPool).bind id).map
      (fun made => findCombined made.2 made.1 (hashKey (ngxString "y.x.a.com")) (ngxString "y.x.a.com")) =
        some (some 4) := by
    decide +kernel
  obtain ⟨⟨hash, heap⟩, hsome, hfour⟩ := Option.map_eq_some_iff.mp hmade
  obtain ⟨result, hresult, rfl⟩ := Option.bind_eq_some_iff.mp hsome
  obtain ⟨ha, hadded⟩ := Option.isSome_iff_exists.mp
    (show (addedAll .large crossedNames).isSome = true by decide)
  obtain ⟨found, hfound, hchosen⟩ := h crossedNames ha hash heap (ngxString "y.x.a.com")
    (by simp only [Pointer]; decide) hadded hresult (by decide)
  have height : found = 8 := hchosen.best (ngxString "*.x.a.com", 8) (by decide) (by decide)
    (by decide)
  rw [hfound, Option.some_inj, height] at hfour
  exact absurd hfour (by decide)

end Nginx.Hash
