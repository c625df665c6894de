import Nginx.Core.Hash.Agreement
import Nginx.Core.Hash.Wildcard.Serve

namespace Nginx.Hash

open LongestMatch ByteMemory

-- Whatever size is chosen for a table of the names, its buckets have room.
def Room (cacheline : Nat) (hinit : Init) (names : List Key) : Prop :=
  ∀ size, Taken hinit names size → Roomy cacheline size names

def withoutValue (name : Key) : Key := { name with value := 0 }

theorem bucketSum_withoutValue (size i : Nat) (names : List Key) :
    bucketSum size i (names.map withoutValue) = bucketSum size i names := by
  induction names with
  | nil => rfl
  | cons name names ih =>
      rw [List.map_cons, bucketSum, bucketSum, ih]
      rfl

theorem fitsSize_withoutValue (bucketSize size : Nat) (names : List Key) (test : Nat → Nat) :
    fitsSize bucketSize size (names.map withoutValue) test = fitsSize bucketSize size names test := by
  induction names generalizing test with
  | nil => rfl
  | cons name names ih =>
      rw [List.map_cons, fitsSize, fitsSize]
      simp only [ih]
      rfl

theorem passes_withoutValue (bucketSize size : Nat) (names : List Key) :
    Passes bucketSize size (names.map withoutValue) ↔ Passes bucketSize size names := by
  rw [← fitsSize_iff_passes, ← fitsSize_iff_passes, fitsSize_withoutValue]

-- The values play no part in the sizes.
theorem Room.of_withoutValue {cacheline : Nat} {hinit : Init} {names : List Key}
    (h : Room cacheline hinit (names.map withoutValue)) : Room cacheline hinit names := by
  intro size htaken
  obtain ⟨start, hstart, hle, hlt, hpasses, hfirst⟩ := htaken
  have hroomy := h size ⟨start, by rw [List.length_map]; exact hstart, hle, hlt,
    (passes_withoutValue _ _ _).mpr hpasses, fun s h1 h2 h3 => hfirst s h1 h2 ((passes_withoutValue _ _ _).mp h3)⟩
  intro i hi hsum
  have hlt := hroomy i hi (by rw [bucketSum_withoutValue]; exact hsum)
  rw [bucketSum_withoutValue] at hlt
  exact hlt

theorem room_of_small {cacheline : Nat} {hinit : Init} (hcache : CachelineSize cacheline)
    (hsmall : hinit.bucketSize ≤ 2 ^ 15) (names : List Key)
    (hsizes : ∀ name ∈ names, eltSize name + 8 ≤ hinit.bucketSize) : Room cacheline hinit names := by
  rcases meets_of_small hcache hsmall ⟨true, some 1, some 1⟩ names with h | h | h | h | h
  · obtain ⟨name, hname, hlt⟩ := h
    have hle := hsizes name hname
    omega
  · cases h
  · cases h
  · cases h
  · exact h

-- The labels of a level, as the names of its table, and the names of the level below a label
def levelKeys (names : List Key) : List Key :=
  (names.map firstLabel).dedup.map fun label => plainKey label (hashKeyLc label) 0

def remainder (label : Bytes) (name : Key) : Option Key :=
  if firstLabel name = label ∧ label.length + 1 < name.data.length then
    some (plainKey (name.data.drop (label.length + 1)) 0 name.value)
  else none

def belowNames (label : Bytes) (names : List Key) : List Key := names.filterMap (remainder label)

-- The tables of all levels have room.
def Rooms (cacheline : Nat) (hinit : Init) : Nat → List Key → Prop
  | 0, _ => True
  | depth + 1, names =>
      Room cacheline hinit (levelKeys names) ∧ ∀ label, Rooms cacheline hinit depth (belowNames label names)

theorem eltSize_mono {a b : Key} (h : a.data.length ≤ b.data.length) : eltSize a ≤ eltSize b := by
  unfold eltSize align
  omega

-- Buckets of up to 32 kilobytes have room on all levels when each name fits in one.
theorem rooms_of_small {cacheline : Nat} {hinit : Init} (hcache : CachelineSize cacheline)
    (hsmall : hinit.bucketSize ≤ 2 ^ 15) (depth : Nat) {names : List Key}
    (hsizes : ∀ name ∈ names, eltSize name + 8 ≤ hinit.bucketSize) : Rooms cacheline hinit depth names := by
  induction depth generalizing names with
  | zero => trivial
  | succ depth ih =>
      constructor
      · apply room_of_small hcache hsmall
        intro key hkey
        obtain ⟨label, hlabel, rfl⟩ := List.mem_map.mp hkey
        obtain ⟨name, hname, rfl⟩ := List.mem_map.mp (List.mem_dedup.mp hlabel)
        have hle := eltSize_mono (a := plainKey (firstLabel name) (hashKeyLc (firstLabel name)) 0) (b := name)
          (List.takeWhile_sublist _).length_le
        have hsize := hsizes name hname
        omega
      · intro label
        apply ih
        intro key hkey
        obtain ⟨name, hname, hsome⟩ := List.mem_filterMap.mp hkey
        unfold remainder at hsome
        split at hsome
        · cases hsome
          have hle := eltSize_mono (a := plainKey (name.data.drop (label.length + 1)) 0 name.value) (b := name)
            (List.drop_sublist _ _).length_le
          have hsize := hsizes name hname
          omega
        · cases hsome

theorem Group.belowNames_eq {name : Key} {others rest : List Key} (h : Group name others rest) :
    belowNames (firstLabel name) (name :: (others ++ rest)) = nextNames name others := by
  have hrest : rest.filterMap (remainder (firstLabel name)) = [] := by
    rw [List.filterMap_eq_nil_iff]
    intro other hmem
    exact if_neg fun hand => h.outside other hmem hand.1
  have hothers : others.filterMap (remainder (firstLabel name)) =
      others.map fun other => plainKey (other.data.drop ((firstLabel name).length + 1)) 0 other.value := by
    rw [← List.filterMap_eq_map]
    apply List.filterMap_congr
    intro other hmem
    obtain ⟨r, hr, hdata⟩ := h.members other hmem
    have hlabel : firstLabel other = firstLabel name := by
      rw [firstLabel, hdata, takeWhile_first (dot_not_mem_firstLabel name)]
    have hpos := List.length_pos_iff.mpr hr
    rw [remainder, if_pos ⟨hlabel, by rw [hdata, List.length_append, List.length_cons]; omega⟩]
    rfl
  have hfirst : ([name].filterMap (remainder (firstLabel name))) = nextNames name [] := by
    rw [nextNames, labelLen, List.filterMap_cons, remainder]
    rcases firstLabel_cases name with hdata | hdata | ⟨r, hr, hdata⟩
    · have hlen := congrArg List.length hdata
      simp [hlen]
    · have hlen := congrArg List.length hdata
      rw [List.length_append, List.length_singleton] at hlen
      simp [hlen]
    · have hlen := congrArg List.length hdata
      have hpos := List.length_pos_iff.mpr hr
      rw [List.length_append, List.length_cons] at hlen
      have hlt : (firstLabel name).length < name.data.length := by omega
      have hlt' : (firstLabel name).length + 1 < name.data.length := by omega
      simp [hlt, hlt', Nat.ne_of_gt hlt']
  rw [belowNames, ← List.singleton_append, List.filterMap_append, List.filterMap_append, hfirst, hothers, hrest,
    List.append_nil, nextNames_append name others]

theorem Group.dedup_labels {name : Key} {others rest : List Key} (h : Group name others rest) :
    ((name :: (others ++ rest)).map firstLabel).dedup = firstLabel name :: (rest.map firstLabel).dedup := by
  have hfresh : firstLabel name ∉ rest.map firstLabel := by
    rw [List.mem_map]
    rintro ⟨other, hmem, heq⟩
    exact h.outside other hmem heq
  have hlabels : ∀ other ∈ others, firstLabel other = firstLabel name := by
    intro other hmem
    obtain ⟨r, -, hdata⟩ := h.members other hmem
    rw [firstLabel, hdata, takeWhile_first (dot_not_mem_firstLabel name)]
  clear h
  induction others with
  | nil => rw [List.nil_append, List.map_cons, List.dedup_cons_of_notMem hfresh]
  | cons other others ih =>
      have hother := hlabels other List.mem_cons_self
      have hrest := ih fun o ho => hlabels o (List.mem_cons_of_mem _ ho)
      rw [List.map_cons, List.cons_append, List.map_cons, hother, List.dedup_cons_of_mem List.mem_cons_self,
        ← List.map_cons (f := firstLabel) (a := name)]
      exact hrest

def Pool.addresses (pool : Pool) : List Nat := pool.answers.filterMap Answers.table

-- What the pool promises: the addresses it gives are new, aligned to pointers and not NULL.
structure Pool.Sound (pool : Pool) : Prop where
  distinct : (pool.addresses ++ pool.heap.map Prod.fst).Nodup
  aligned : ∀ a ∈ pool.addresses, a ≠ 0 ∧ a % 4 = 0 ∧ a < 2 ^ 64
  elts : ∀ answer ∈ pool.answers, answer.elts ≠ some 0

-- A heap that has what another one has
def Keeps (heap heap' : Heap) : Prop := ∀ a hwc, heap.lookup a = some hwc → heap'.lookup a = some hwc

-- What a part of the building does to the pool
structure Grows (pool pool' : Pool) : Prop where
  mem : pool'.mem = pool.mem
  answers : pool'.answers <:+ pool.answers
  fresh : ∀ a ∈ pool'.heap.map Prod.fst, a ∈ pool.heap.map Prod.fst ∨ a ∈ pool.addresses
  kept : ∀ a ∈ pool.heap.map Prod.fst, a ∈ pool'.heap.map Prod.fst ∧ pool'.heap.lookup a = pool.heap.lookup a
  sound : pool.Sound → pool'.Sound

theorem Grows.refl (pool : Pool) : Grows pool pool :=
  ⟨rfl, List.suffix_refl _, fun _ h => Or.inl h, fun _ h => ⟨h, rfl⟩, id⟩

theorem Grows.addresses {pool pool' : Pool} (h : Grows pool pool') :
    ∀ a ∈ pool'.addresses, a ∈ pool.addresses :=
  fun _ ha => (h.answers.sublist.filterMap _).subset ha

theorem Grows.trans {pool pool' pool'' : Pool} (h : Grows pool pool') (h' : Grows pool' pool'') :
    Grows pool pool'' := by
  constructor
  · rw [h'.mem, h.mem]
  · exact h'.answers.trans h.answers
  · intro a ha
    rcases h'.fresh a ha with hold | hnew
    · exact h.fresh a hold
    · exact Or.inr (h.addresses a hnew)
  · intro a ha
    obtain ⟨hmem, hlookup⟩ := h.kept a ha
    obtain ⟨hmem', hlookup'⟩ := h'.kept a hmem
    exact ⟨hmem', hlookup'.trans hlookup⟩
  · exact fun hsound => h'.sound (h.sound hsound)

theorem mem_fst_of_lookup {heap : Heap} {a : Nat} {hwc : Wildcard} (h : heap.lookup a = some hwc) :
    a ∈ heap.map Prod.fst := by
  induction heap with
  | nil => cases h
  | cons entry heap ih =>
      obtain ⟨b, hwc'⟩ := entry
      rw [List.lookup_cons] at h
      by_cases hab : a = b
      · simp [hab]
      · have hfalse : (a == b) = false := by simpa using hab
        rw [hfalse] at h
        exact List.mem_cons_of_mem _ (ih h)

theorem Grows.keeps {pool pool' : Pool} (h : Grows pool pool') : Keeps pool.heap pool'.heap := by
  intro a hwc hlookup
  rw [(h.kept a (mem_fst_of_lookup hlookup)).2, hlookup]

theorem setValue_fst (pool : Pool) (address value : Nat) :
    (pool.setValue address value).heap.map Prod.fst = pool.heap.map Prod.fst := by
  rw [Pool.setValue, List.map_map]
  apply List.map_congr_left
  intro entry _
  simp only [Function.comp_apply]
  split <;> rfl

theorem setValue_lookup (pool : Pool) (address value a : Nat) :
    (pool.setValue address value).heap.lookup a =
      if a = address then (pool.heap.lookup a).map fun hwc => { hwc with value := value }
      else pool.heap.lookup a := by
  unfold Pool.setValue
  dsimp only
  induction pool.heap with
  | nil => simp
  | cons entry heap ih =>
      obtain ⟨b, hwc⟩ := entry
      have hentry : (if b = address then (b, { hwc with value := value }) else (b, hwc)) =
          (b, if b = address then { hwc with value := value } else hwc) := by
        split <;> rfl
      rw [List.map_cons, hentry, List.lookup_cons, List.lookup_cons, ih]
      by_cases hab : a = b
      · subst hab
        simp only [beq_self_eq_true, Option.map_some]
        split <;> rfl
      · have hfalse : (a == b) = false := by simpa using hab
        simp only [hfalse]

theorem grows_setValue {pool pool' : Pool} (h : Grows pool pool') (address value : Nat)
    (hfresh : address ∉ pool.heap.map Prod.fst) : Grows pool (pool'.setValue address value) := by
  constructor
  · exact h.mem
  · exact h.answers
  · intro a ha
    rw [setValue_fst] at ha
    exact h.fresh a ha
  · intro a ha
    obtain ⟨hmem, hlookup⟩ := h.kept a ha
    have hne : a ≠ address := fun heq => hfresh (heq ▸ ha)
    rw [setValue_fst, setValue_lookup, if_neg hne]
    exact ⟨hmem, hlookup⟩
  · intro hsound
    have hsound' := h.sound hsound
    refine ⟨?_, hsound'.aligned, hsound'.elts⟩
    rw [setValue_fst]
    exact hsound'.distinct

-- What ngx_hash_wildcard_init gives for some rules: a new hash that answers them, as long as the hashes built for
-- its own levels stay as they are.
structure Built (pool pool' : Pool) (address : Nat) (rules : List (Rule Bytes Nat)) : Prop where
  grows : Grows pool pool'
  fresh : address ∉ pool.heap.map Prod.fst
  aligned : address ≠ 0 ∧ address % 4 = 0 ∧ address < 2 ^ 64
  serves : ∃ table mem, pool'.heap.lookup address = some ⟨table, mem, 0⟩ ∧
    ∀ heap, (∀ a hwc, a ≠ address → pool'.heap.lookup a = some hwc → heap.lookup a = some hwc) →
      Serves heap table mem rules

-- What the loop over the groups adds to curr_names
structure Looped (pool pool' : Pool) (names made : List Key) : Prop where
  grows : Grows pool pool'
  keys : made.map withoutValue = levelKeys names
  values : ∀ name ∈ made, name.value ≠ 0 ∧ name.value < 2 ^ 64
  entries : ∀ heap, Keeps pool'.heap heap →
    ∀ name ∈ made, Entry heap name.value (below name.data (rulesOf names))

-- The element of a group with no next level
theorem entry_leaf {name : Key} {others rest : List Key} (h : Level (name :: (others ++ rest)))
    (hgroup : Group name others rest) (hnext : nextNames name others = []) (heap : Heap) :
    Entry heap (if hasDot name then name.value ||| 1 else name.value)
      (below (firstLabel name) (rulesOf (name :: (others ++ rest)))) := by
  obtain ⟨hne, haligned, -⟩ := h.values name List.mem_cons_self
  rw [hgroup.below_eq, hnext, rulesOf, List.map_nil, List.append_nil]
  have hdot := dot_not_mem_firstLabel name
  unfold ownRule
  unfold nextNames labelLen at hnext
  unfold hasDot
  have hcases := firstLabel_cases name
  generalize firstLabel name = label at hdot hnext hcases ⊢
  rcases hcases with hdata | hdata | ⟨r, hr, hdata⟩
  · have hleaf : Entry heap name.value [⟨[], false, name.value⟩] := Entry.leaf false name.value hne haligned
    simpa [hdata, nameLabels_label hdot] using hleaf
  · have hleaf : Entry heap (name.value ||| 1) [⟨[], true, name.value⟩] := Entry.leaf true name.value hne haligned
    simpa [hdata, nameLabels_dot hdot] using hleaf
  · exfalso
    have hpos := List.length_pos_iff.mpr hr
    have hlen := congrArg List.length hdata
    rw [List.length_append, List.length_cons] at hlen
    have hlt : label.length < name.data.length := by omega
    have hne : name.data.length ≠ label.length + 1 := by omega
    simp [hlt, hne] at hnext

theorem rulesOf_next {names : List Key} (h : Level names) :
    ∀ rule ∈ rulesOf names, rule.labels ≠ [] ∧ rule.value ≠ 0 := by
  intro rule hrule
  obtain ⟨name, hname, rfl⟩ := List.mem_map.mp hrule
  obtain ⟨rest, hrest⟩ := nameLabels_head name
  refine ⟨?_, (h.values name hname).1⟩
  rw [ruleOf, hrest]
  simp

-- The element of a group whose next level has a hash, which keeps the value of a name that ends at the label.
theorem entry_node {name : Key} {others rest : List Key} {pool pool' : Pool} {wdc : Nat}
    (h : Level (name :: (others ++ rest))) (hgroup : Group name others rest)
    (hbuilt : Built pool pool' wdc (rulesOf (nextNames name others))) (heap : Heap)
    (hkeeps : Keeps (if name.data.length = labelLen name then pool'.setValue wdc name.value else pool').heap heap) :
    Entry heap (wdc ||| (if hasDot name then 3 else 2))
      (below (firstLabel name) (rulesOf (name :: (others ++ rest)))) := by
  obtain ⟨hvalue, -, -⟩ := h.values name List.mem_cons_self
  have hnext := rulesOf_next (h.next hgroup)
  obtain ⟨hne, haligned, -⟩ := hbuilt.aligned
  obtain ⟨table, mem, hlookup, hserves⟩ := hbuilt.serves
  rw [hgroup.below_eq]
  have hset : ∀ value, Keeps (pool'.setValue wdc value).heap heap →
      heap.lookup wdc = some ⟨table, mem, value⟩ ∧
        Serves heap table mem (rulesOf (nextNames name others)) := by
    intro value hkeeps
    constructor
    · apply hkeeps
      rw [setValue_lookup, if_pos rfl, hlookup]
      rfl
    · apply hserves
      intro a hwc ha hlook
      apply hkeeps
      rw [setValue_lookup, if_neg ha, hlook]
  have hdot := dot_not_mem_firstLabel name
  have hcases := firstLabel_cases name
  unfold ownRule hasDot
  unfold labelLen at hkeeps
  generalize hrules : rulesOf (nextNames name others) = next at hnext hset ⊢
  rw [hrules] at hserves
  generalize firstLabel name = label at hdot hcases hkeeps ⊢
  rcases hcases with hdata | hdata | ⟨r, hr, hdata⟩
  · simp only [hdata, Nat.lt_irrefl, if_false, if_true] at hkeeps
    obtain ⟨hlook, hnextServes⟩ := hset name.value hkeeps
    have hplain := Entry.plain wdc name.value table mem next hne haligned hlook hvalue hnext hnextServes
    simpa [hdata, nameLabels_label hdot] using hplain
  · have hlen : name.data.length = label.length + 1 := by rw [hdata, List.length_append, List.length_singleton]
    simp only [hlen, Nat.lt_succ_self, if_true] at hkeeps
    obtain ⟨hlook, hnextServes⟩ := hset name.value hkeeps
    have hstrict := Entry.strict wdc name.value table mem next hne haligned hlook hvalue hnext hnextServes
    simpa [hdata, nameLabels_dot hdot] using hstrict
  · have hpos := List.length_pos_iff.mpr hr
    have hlen := congrArg List.length hdata
    rw [List.length_append, List.length_cons] at hlen
    have hlt : label.length < name.data.length := by omega
    have hneLen : name.data.length ≠ label.length + 1 := by omega
    simp only [hlt, hneLen, if_true, if_false] at hkeeps
    have hlook : heap.lookup wdc = some ⟨table, mem, 0⟩ := hkeeps _ _ hlookup
    have hnextServes := hserves heap fun a hwc _ hlook => hkeeps a hwc hlook
    have hinner := Entry.inner wdc table mem next hne haligned hlook hnext hnextServes
    obtain ⟨first, tail, htail⟩ : ∃ first tail, (nameLabels r).1 = first :: tail :=
      ⟨_, nameLabels_head (plainKey r 0 0)⟩
    have hlabels : (nameLabels name.data).1 ≠ [label] := by
      rw [hdata, nameLabels_cons hdot hr, htail]
      simp
    simpa [hlt, hlabels] using hinner

theorem wildcardLoop_cons (build : List Key → Pool → Result (Nat × Pool)) (n : Nat) (name : Key)
    (names curr : List Key) (pool : Pool) :
    wildcardLoop build (n + 1) (name :: names) curr pool =
      if nextNames name (names.takeWhile (inGroup name)) = [] then
        wildcardLoop build n (names.dropWhile (inGroup name)) (curr ++ [plainKey (firstLabel name)
          (hashKeyLc (firstLabel name))
          (if hasDot name then name.value ||| 1 else name.value)]) pool
      else
        match build (nextNames name (names.takeWhile (inGroup name))) pool with
        | none => none
        | some none => some none
        | some (some (wdc, pool)) =>
            wildcardLoop build n (names.dropWhile (inGroup name)) (curr ++ [plainKey (firstLabel name)
                (hashKeyLc (firstLabel name))
                (wdc ||| (if hasDot name then 3 else 2))])
              (if name.data.length = labelLen name then pool.setValue wdc name.value else pool) := by
  rw [wildcardLoop]
  simp only [drop_takeWhile]
  all_goals rfl

theorem mem_levelKeys {names : List Key} {key : Key} (h : key ∈ levelKeys names) :
    ∃ name ∈ names, key = plainKey (firstLabel name) (hashKeyLc (firstLabel name)) 0 := by
  obtain ⟨label, hlabel, rfl⟩ := List.mem_map.mp h
  obtain ⟨name, hname, rfl⟩ := List.mem_map.mp (List.mem_dedup.mp hlabel)
  exact ⟨name, hname, rfl⟩

theorem Group.belowNames_of_ne {name : Key} {others rest : List Key} (h : Group name others rest) {label : Bytes}
    (hne : firstLabel name ≠ label) : belowNames label (name :: (others ++ rest)) = belowNames label rest := by
  have hothers : others.filterMap (remainder label) = [] := by
    rw [List.filterMap_eq_nil_iff]
    intro other hmem
    obtain ⟨r, -, hdata⟩ := h.members other hmem
    apply if_neg
    rintro ⟨hlabel, -⟩
    rw [firstLabel, hdata, takeWhile_first (dot_not_mem_firstLabel name)] at hlabel
    exact hne hlabel
  rw [belowNames, List.filterMap_cons, remainder, if_neg fun hand => hne hand.1, List.filterMap_append, hothers]
  rfl

theorem Looped.labels {pool pool' : Pool} {names made : List Key} (h : Looped pool pool' names made) :
    ∀ key ∈ made, ∃ name ∈ names, firstLabel name = key.data := by
  intro key hkey
  have hmem : withoutValue key ∈ levelKeys names := h.keys ▸ List.mem_map_of_mem hkey
  obtain ⟨name, hname, heq⟩ := mem_levelKeys hmem
  exact ⟨name, hname, (congrArg Key.data heq).symm⟩

-- A group in front of what the loop goes on with
theorem Looped.cons {name : Key} {others rest made : List Key} {pool pool₁ pool' : Pool} {value : Nat}
    (hgroup : Group name others rest) (hgrows : Grows pool pool₁) (hvalue : value ≠ 0 ∧ value < 2 ^ 64)
    (hentry : ∀ heap, Keeps pool₁.heap heap →
      Entry heap value (below (firstLabel name) (rulesOf (name :: (others ++ rest)))))
    (h : Looped pool₁ pool' rest made) :
    Looped pool pool' (name :: (others ++ rest))
      (plainKey (firstLabel name) (hashKeyLc (firstLabel name)) value :: made) := by
  constructor
  · exact hgrows.trans h.grows
  · rw [levelKeys, hgroup.dedup_labels, List.map_cons, List.map_cons, h.keys]
    rfl
  · intro key hkey
    rcases List.mem_cons.mp hkey with rfl | hkey
    · exact hvalue
    · exact h.values key hkey
  · intro heap hkeeps key hkey
    rcases List.mem_cons.mp hkey with rfl | hkey
    · exact hentry heap fun a hwc hlookup => hkeeps a hwc (h.grows.keeps a hwc hlookup)
    · obtain ⟨other, hother, hlabel⟩ := h.labels key hkey
      have hne : firstLabel name ≠ key.data := fun heq => hgroup.outside other hother (hlabel.trans heq.symm)
      rw [hgroup.below_of_ne hne]
      exact h.entries heap hkeeps key hkey

theorem or_tag_bounds {a tag : Nat} (ha : a ≠ 0 ∧ a % 4 = 0 ∧ a < 2 ^ 64) (htag : tag < 4) :
    a ||| tag ≠ 0 ∧ a ||| tag < 2 ^ 64 := by
  rw [or_tag ha.2.1 htag]
  omega

-- What is asked of the recursive call
def Builds (build : List Key → Pool → Result (Nat × Pool)) (cacheline : Nat) (hinit : Init) (depth : Nat) : Prop :=
  ∀ names pool address pool', Level names → pool.Sound → Rooms cacheline hinit depth names →
    build names pool = some (some (address, pool')) → Built pool pool' address (rulesOf names)

theorem wildcardLoop_spec {build : List Key → Pool → Result (Nat × Pool)} {cacheline depth : Nat} {hinit : Init}
    (hbuild : Builds build cacheline hinit depth) (n : Nat) {names curr curr' : List Key} {pool pool' : Pool}
    (hlevel : Level names) (hsound : pool.Sound)
    (hrooms : ∀ name ∈ names, Rooms cacheline hinit depth (belowNames (firstLabel name) names))
    (h : wildcardLoop build n names curr pool = some (some (curr', pool'))) :
    ∃ made, curr' = curr ++ made ∧ Looped pool pool' names made := by
  induction n generalizing names curr pool with
  | zero =>
      cases names with
      | nil =>
          cases h
          exact ⟨[], (List.append_nil _).symm, Grows.refl _, rfl, by simp, by simp⟩
      | cons name names => cases h
  | succ n ih =>
      cases names with
      | nil =>
          cases h
          exact ⟨[], (List.append_nil _).symm, Grows.refl _, rfl, by simp, by simp⟩
      | cons name names =>
          rw [wildcardLoop_cons] at h
          have hgroup := hlevel.group
          have hnames := List.takeWhile_append_dropWhile (p := inGroup name) (l := names)
          generalize names.takeWhile (inGroup name) = others at h hgroup hnames
          generalize names.dropWhile (inGroup name) = rest at h hgroup hnames
          rw [← hnames] at hlevel hrooms ⊢
          have hsub : rest.Sublist (name :: (others ++ rest)) :=
            (List.sublist_append_right others rest).trans (List.sublist_cons_self _ _)
          have hrest : ∀ other ∈ rest, Rooms cacheline hinit depth (belowNames (firstLabel other) rest) := by
            intro other hother
            rw [← hgroup.belowNames_of_ne fun heq => hgroup.outside other hother heq.symm]
            exact hrooms other (hsub.subset hother)
          have hvalue := hlevel.values name List.mem_cons_self
          split at h
          · rename_i hnext
            obtain ⟨made, hcurr, hlooped⟩ := ih (hlevel.sublist hsub) hsound hrest h
            refine ⟨_, by rw [hcurr, List.append_assoc, List.singleton_append], ?_⟩
            apply Looped.cons hgroup (Grows.refl pool) _ (fun heap _ => entry_leaf hlevel hgroup hnext heap) hlooped
            split
            · exact or_tag_bounds hvalue (by decide)
            · exact ⟨hvalue.1, hvalue.2.2⟩
          · split at h
            · cases h
            · cases h
            · rename_i wdc pool₁ hnested
              have hbelow := hrooms name List.mem_cons_self
              rw [hgroup.belowNames_eq] at hbelow
              have hbuilt := hbuild _ _ _ _ (hlevel.next hgroup) hsound hbelow hnested
              have hgrows : Grows pool (if name.data.length = labelLen name then pool₁.setValue wdc name.value
                  else pool₁) := by
                split
                · exact grows_setValue hbuilt.grows wdc name.value hbuilt.fresh
                · exact hbuilt.grows
              obtain ⟨made, hcurr, hlooped⟩ := ih (hlevel.sublist hsub) (hgrows.sound hsound) hrest h
              refine ⟨_, by rw [hcurr, List.append_assoc, List.singleton_append], ?_⟩
              apply Looped.cons hgroup hgrows _ (entry_node hlevel hgroup hbuilt) hlooped
              apply or_tag_bounds hbuilt.aligned
              split <;> decide

theorem hashKeyLc_eq (label : Bytes) : hashKeyLc label = hashKey (label.map tolower) := by
  rw [hashKeyLc, hashKey, List.foldl_map]

-- The names that the loop has made are the keys of a table.
theorem Looped.keys_made {pool pool' : Pool} {names made : List Key} (hlevel : Level names)
    (h : Looped pool pool' names made) : Keys made ∧ ∀ key ∈ made, key.null = false := by
  have hmade : ∀ key ∈ made, ∃ name ∈ names, key.data = firstLabel name ∧ key.null = false ∧
      key.keyHash = hashKeyLc (firstLabel name) := by
    intro key hkey
    have hmem : withoutValue key ∈ levelKeys names := h.keys ▸ List.mem_map_of_mem hkey
    obtain ⟨name, hname, heq⟩ := mem_levelKeys hmem
    exact ⟨name, hname, congrArg Key.data heq, congrArg Key.null heq, congrArg Key.keyHash heq⟩
  have hlower : ∀ name ∈ names, (firstLabel name).map tolower = firstLabel name := by
    intro name hname
    obtain ⟨rest, hdata⟩ := List.takeWhile_prefix (l := name.data) (· ≠ dot)
    have hname := hlevel.lower name hname
    rw [← hdata, List.map_append] at hname
    exact (List.append_inj hname (List.length_map _)).1
  have hnull : made.filter (fun name => !name.null) = made := by
    rw [List.filter_eq_self]
    intro key hkey
    obtain ⟨-, -, -, hnull, -⟩ := hmade key hkey
    rw [hnull]
    rfl
  refine ⟨⟨?_, ?_, fun key hkey _ => h.values key hkey, ?_⟩, fun key hkey => ?_⟩
  · have hdata : made.map Key.data = (levelKeys names).map Key.data := by
      rw [← h.keys, List.map_map]
      rfl
    have hlabels : (levelKeys names).map Key.data = (names.map firstLabel).dedup := by
      rw [levelKeys, List.map_map]
      exact List.map_id _
    rw [hnull, hdata, hlabels]
    exact List.nodup_dedup _
  · intro key hkey _
    obtain ⟨name, hname, hdata, -⟩ := hmade key hkey
    rw [hdata, hlower name hname]
  · intro key hkey _
    obtain ⟨name, hname, hdata, -, hhash⟩ := hmade key hkey
    rw [hhash, hdata, hashKeyLc_eq, hlower name hname]
  · obtain ⟨-, -, -, hnull, -⟩ := hmade key hkey
    exact hnull

-- The table of a level gives for each label the element that stands for what is below it.
theorem Looped.serves {cacheline : Nat} {hinit : Init} {answer : Answers} {pool pool' : Pool} {names made : List Key}
    {table : Table} {mem : Memory} (hcache : CachelineSize cacheline) (helts : answer.elts ≠ some 0)
    (hlevel : Level names) (hroom : Room cacheline hinit (levelKeys names)) (h : Looped pool pool' names made)
    (hinit : init cacheline hinit answer made pool'.mem = some (some (table, mem))) (heap : Heap)
    (hkeeps : Keeps pool'.heap heap) : Serves heap table mem (rulesOf names) := by
  obtain ⟨hkeys, hnull⟩ := h.keys_made hlevel
  have hmeets : Room cacheline _ made := Room.of_withoutValue (h.keys ▸ hroom)
  have hagrees : Agrees made table mem :=
    (init_agrees_iff hcache helts hkeys).mpr (Or.inr (Or.inr (Or.inr (Or.inr hmeets)))) table mem hinit
  have hlength : table.placed.length = made.length := by
    have helements := congrArg List.length hagrees.elements
    rw [List.length_map, List.filter_eq_self.mpr fun key hkey => by rw [hnull key hkey]; rfl] at helements
    exact helements
  apply serves_of_entries fun rule hrule => (rulesOf_next hlevel rule hrule).1
  intro label
  by_cases hlabel : ∃ key ∈ made, key.data = label
  · obtain ⟨key, hkey, rfl⟩ := hlabel
    exact ⟨_, hagrees.found key hkey (hnull key hkey) _ (by omega), h.entries heap hkeeps key hkey⟩
  · have hnone : ∀ key ∈ made, key.null = false → key.data ≠ label :=
      fun key hkey _ heq => hlabel ⟨key, hkey, heq⟩
    have hbelow : below label (rulesOf names) = [] := by
      apply below_rest
      intro name hname heq
      have hmem : plainKey (firstLabel name) (hashKeyLc (firstLabel name)) 0 ∈ made.map withoutValue := by
        rw [h.keys]
        exact List.mem_map_of_mem (List.mem_dedup.mpr (List.mem_map_of_mem hname))
      obtain ⟨key, hkey, hwithout⟩ := List.mem_map.mp hmem
      exact hlabel ⟨key, hkey, (congrArg Key.data hwithout).trans heq⟩
    refine ⟨0, hagrees.missing label hnone _ (by omega), ?_⟩
    rw [hbelow]
    exact Entry.missing

-- A new hash in the pool
theorem grows_new {pool : Pool} {answer : Answers} {answers : List Answers} {address : Nat} (hsound : pool.Sound)
    (hanswers : pool.answers = answer :: answers) (haddress : answer.table = some address) (hwc : Wildcard) :
    Grows pool { pool with answers := answers, heap := (address, hwc) :: pool.heap } ∧
      address ∉ pool.heap.map Prod.fst ∧ address ∈ pool.addresses := by
  have haddresses : pool.addresses = address :: answers.filterMap Answers.table := by
    rw [Pool.addresses, hanswers, List.filterMap_cons, haddress]
  have hdistinct := hsound.distinct
  rw [haddresses, List.cons_append, List.nodup_cons, List.mem_append, not_or] at hdistinct
  refine ⟨⟨rfl, ?_, ?_, ?_, fun _ => ⟨?_, ?_, ?_⟩⟩, hdistinct.1.2, by rw [haddresses]; exact List.mem_cons_self⟩
  · rw [hanswers]
    exact List.suffix_cons _ _
  · intro a ha
    rcases List.mem_cons.mp ha with rfl | ha
    · exact Or.inr (by rw [haddresses]; exact List.mem_cons_self)
    · exact Or.inl ha
  · intro a ha
    have hne : (a == address) = false := by
      rw [beq_eq_false_iff_ne]
      exact fun heq => hdistinct.1.2 (heq ▸ ha)
    exact ⟨List.mem_cons_of_mem _ ha, by rw [List.lookup_cons, hne]⟩
  · have hperm : (answers.filterMap Answers.table ++ address :: pool.heap.map Prod.fst).Perm
        (address :: (answers.filterMap Answers.table ++ pool.heap.map Prod.fst)) := List.perm_middle
    exact hperm.nodup_iff.mpr (List.nodup_cons.mpr ⟨by rw [List.mem_append, not_or]; exact hdistinct.1, hdistinct.2⟩)
  · intro a ha
    exact hsound.aligned a (by rw [haddresses]; exact List.mem_cons_of_mem _ ha)
  · intro other hother
    exact hsound.elts other (by rw [hanswers]; exact List.mem_cons_of_mem _ hother)

-- ngx_hash_wildcard_init, by induction on the depth
theorem wildcardInit_builds {cacheline : Nat} (hcache : CachelineSize cacheline) (hinit : Init) (depth : Nat) :
    Builds (wildcardInit cacheline hinit depth) cacheline hinit depth := by
  induction depth with
  | zero =>
      intro names pool address pool' _ _ _ h
      cases h
  | succ depth ih =>
      intro names pool address pool' hlevel hsound hrooms h
      rw [wildcardInit] at h
      split at h
      · cases h
      · cases h
      · rename_i curr pool₁ hloop
        obtain ⟨made, hcurr, hlooped⟩ := wildcardLoop_spec ih _ hlevel hsound (fun name _ => hrooms.2 _) hloop
        rw [List.nil_append] at hcurr
        subst hcurr
        have hsound₁ := hlooped.grows.sound hsound
        split at h
        · cases h
        · rename_i answer answers hanswers
          split at h
          · cases h
          · rename_i table mem address' hmade haddress
            cases h
            obtain ⟨hgrows, hfresh, hmem⟩ := grows_new hsound₁ hanswers haddress ⟨table, mem, 0⟩
            have helts := hsound₁.elts answer (by rw [hanswers]; exact List.mem_cons_self)
            refine ⟨hlooped.grows.trans hgrows, fun hold => hfresh (hlooped.grows.kept _ hold).1,
              hsound₁.aligned _ hmem, table, mem, by rw [List.lookup_cons, beq_self_eq_true], ?_⟩
            intro heap hkeeps
            apply hlooped.serves hcache helts hlevel hrooms.1 hmade heap
            intro a hwc hlookup
            have hne : a ≠ address := fun heq => hfresh (heq ▸ mem_fst_of_lookup hlookup)
            have hfalse : (a == address) = false := by simpa using hne
            exact hkeeps a hwc hne (by rw [List.lookup_cons, hfalse, hlookup])
          · cases h

end Nginx.Hash
