import Nginx.Core.Hash.Find
import Nginx.Core.Hash.Wildcard.Rules

namespace Nginx.Hash

open LongestMatch

-- What a server name stands for: itself, "*.S", ".S" or "P.*".
inductive Pattern where
  | exact (name : Bytes)
  | star (suffix : Bytes)
  | dotted (suffix : Bytes)
  | trailing (front : Bytes)
  deriving DecidableEq, Repr

def pattern (key : Bytes) : Pattern :=
  if key.length > 1 ∧ key.head? = some dot then .dotted ((key.drop 1).map tolower)
  else if key.length > 2 ∧ [star, dot] <+: key then .star ((key.drop 2).map tolower)
  else if key.length > 2 ∧ [dot, star] <:+ key then .trailing ((key.take (key.length - 2)).map tolower)
  else .exact (key.map tolower)

def Pattern.Covers (host : Bytes) : Pattern → Prop
  | .exact name => host = name
  | .star suffix => dot :: suffix <:+ host
  | .dotted suffix => host = suffix ∨ dot :: suffix <:+ host
  | .trailing front => front ++ [dot] <+: host

-- The three classes in the order in which they are asked, and the length within a class
def Pattern.rank : Pattern → Nat
  | .exact _ => 2
  | .star _ => 1
  | .dotted _ => 1
  | .trailing _ => 0

def Pattern.text : Pattern → Bytes
  | .exact name => name
  | .star suffix => suffix
  | .dotted suffix => suffix
  | .trailing front => front

def Pattern.AtLeast (one two : Pattern) : Prop :=
  two.rank < one.rank ∨ two.rank = one.rank ∧ two.text.length ≤ one.text.length

instance (host : Bytes) (p : Pattern) : Decidable (p.Covers host) :=
  match p with
  | .exact name => inferInstanceAs (Decidable (host = name))
  | .star suffix => inferInstanceAs (Decidable (dot :: suffix <:+ host))
  | .dotted suffix => inferInstanceAs (Decidable (host = suffix ∨ dot :: suffix <:+ host))
  | .trailing front => inferInstanceAs (Decidable (front ++ [dot] <+: host))

instance (one two : Pattern) : Decidable (one.AtLeast two) := inferInstanceAs (Decidable (_ ∨ _))

-- The value of the exact name, else of the longest leading wildcard, else of the longest trailing one, else NULL
structure Chosen (names : List (Bytes × Nat)) (host : Bytes) (found : Nat) : Prop where
  best : ∀ name ∈ names, (pattern name.1).Covers host →
    (∀ other ∈ names, (pattern other.1).Covers host → (pattern name.1).AtLeast (pattern other.1)) → found = name.2
  nothing : (∀ name ∈ names, ¬(pattern name.1).Covers host) → found = 0

-- Names that ngx_hash_add_key has all accepted with NGX_OK
def addedAll (ha : KeysArrays) : List (Bytes × Nat) → Option KeysArrays
  | [] => some ha
  | (name, server) :: names =>
      match addKey ha name server true false with
      | .ok ha => addedAll ha names
      | _ => none

theorem addNames_of_addedAll {ha ha' : KeysArrays} {names : List (Bytes × Nat)} (h : addedAll ha names = some ha') :
    addNames ha names = some ha' := by
  induction names generalizing ha with
  | nil => exact h
  | cons name names ih =>
      obtain ⟨name, server⟩ := name
      rw [addedAll] at h
      rw [addNames]
      cases hadd : addKey ha name server true false with
      | ok ha₁ =>
          rw [hadd] at h
          exact ih h
      | declined => rw [hadd] at h; cases h
      | busy ha₁ => rw [hadd] at h; cases h

-- The reversed name has the labels in the reverse order.
theorem labels_reverseLabels (s label : Bytes) (h : dot ∉ label) :
    labels (reverseLabels s label) = (labels (s.reverse ++ label)).reverse := by
  induction s generalizing label with
  | nil => rw [reverseLabels, List.reverse_nil, List.nil_append, labels_label h, List.reverse_singleton]
  | cons c s ih =>
      rw [reverseLabels]
      split
      · rename_i hc
        rw [labels_cons h, ih [] (by simp), hc, List.reverse_cons, List.append_assoc, List.singleton_append,
          labels_append, labels_label h, List.append_nil, List.reverse_append, List.reverse_singleton,
          List.singleton_append]
      · rename_i hc
        rw [ih (c :: label) (by simp [Ne.symm hc, h]), List.reverse_cons, List.append_assoc, List.singleton_append]

theorem getLast_labels (name : Bytes) : (labels name).getLast? = some [] ↔ name = [] ∨ [dot] <:+ name := by
  rcases last_label_cases name with hname | ⟨rest, label, hlabel, rfl⟩
  · rw [labels_label hname, List.getLast?_singleton, Option.some_inj]
    constructor
    · exact Or.inl
    · rintro (rfl | hsuffix)
      · rfl
      · exact absurd (hsuffix.subset List.mem_cons_self) hname
  · rw [labels_append, labels_label hlabel, List.getLast?_concat, Option.some_inj]
    constructor
    · rintro rfl
      exact Or.inr ⟨rest, rfl⟩
    · rintro (hnil | ⟨t, ht⟩)
      · simp at hnil
      · by_contra hne
        have hlast := congrArg List.getLast? ht
        rw [List.getLast?_concat, List.getLast?_append_of_ne_nil _ (by simp), List.getLast?_cons,
          List.getLast?_eq_some_getLast hne, Option.getD_some, Option.some_inj] at hlast
        exact hlabel (hlast ▸ List.getLast_mem hne)

theorem head_labels (name : Bytes) : (labels name).head? = some [] ↔ name = [] ∨ [dot] <+: name := by
  rcases first_label_cases name with hname | ⟨label, rest, hlabel, rfl⟩
  · rw [labels_label hname, List.head?_cons, Option.some_inj]
    constructor
    · exact Or.inl
    · rintro (rfl | hpre)
      · rfl
      · exact absurd (hpre.subset List.mem_cons_self) hname
  · rw [labels_cons hlabel, List.head?_cons, Option.some_inj]
    constructor
    · rintro rfl
      exact Or.inr (by simp)
    · rintro (hnil | hpre)
      · simp at hnil
      · cases label with
        | nil => rfl
        | cons c label =>
            rw [List.cons_append, List.cons_prefix_cons] at hpre
            exact absurd (hpre.1 ▸ List.mem_cons_self) hlabel

-- ".S" as it is in the array
theorem nameLabels_dotted {suffix : Bytes} (hne : suffix ≠ []) (hdot : ¬[dot] <+: suffix) :
    nameLabels (reverseLabels suffix.reverse []) = ((labels suffix).reverse, false) := by
  have hlabels : labels (reverseLabels suffix.reverse []) = (labels suffix).reverse := by
    rw [labels_reverseLabels _ _ (by simp), List.reverse_reverse, List.append_nil]
  have hlast : ((labels suffix).reverse).getLast? ≠ some [] := by
    rw [List.getLast?_reverse, Ne, head_labels, not_or]
    exact ⟨hne, hdot⟩
  rw [nameLabels, hlabels, if_neg fun hand => hlast hand.2]

-- "*.S" as it is in the array
theorem nameLabels_star (suffix : Bytes) :
    nameLabels (reverseLabels (dot :: suffix).reverse []) = ((labels suffix).reverse, true) := by
  have hlabels : labels (reverseLabels (dot :: suffix).reverse []) = (labels suffix).reverse ++ [[]] := by
    rw [labels_reverseLabels _ _ (by simp), List.reverse_reverse, List.append_nil, ← List.nil_append (dot :: suffix),
      labels_cons (by simp), List.reverse_cons]
  have hlong : 1 < ((labels suffix).reverse ++ [[]]).length := by
    have hpos := List.length_pos_iff.mpr (labels_ne_nil suffix)
    rw [List.length_append, List.length_reverse, List.length_singleton]
    omega
  rw [nameLabels, hlabels, if_pos ⟨hlong, List.getLast?_concat⟩, List.dropLast_concat]

-- "P.*" as it is in the array, when it has no NUL
theorem nameLabels_trailing {front : Bytes} (hdot : ¬[dot] <:+ front) (hne : front ≠ []) :
    nameLabels front = (labels front, false) := by
  rw [nameLabels, if_neg]
  rintro ⟨-, hlast⟩
  rw [getLast_labels] at hlast
  rcases hlast with hnil | hsuffix
  · exact hne hnil
  · exact hdot hsuffix

theorem countStars_dots {key : Bytes} {n m : Nat} (h : countStars key n = some m) : ¬[dot, dot] <:+: key := by
  induction key generalizing n with
  | nil => simp
  | cons c key ih =>
      rw [countStars] at h
      split at h
      · cases h
      · split at h
        · cases h
        · rename_i hdots
          rw [List.infix_cons_iff, not_or]
          refine ⟨?_, ih h⟩
          rintro hpre
          rw [List.cons_prefix_cons] at hpre
          obtain ⟨rfl, t, rfl⟩ := hpre
          exact hdots ⟨rfl, rfl⟩

-- What ngx_hash_add_key has checked of a wildcard
def Pattern.Proper : Pattern → Prop
  | .exact _ => True
  | .star suffix => suffix ≠ [] ∧ ¬[dot] <+: suffix
  | .dotted suffix => suffix ≠ [] ∧ ¬[dot] <+: suffix
  | .trailing front => front ≠ [] ∧ ¬[dot] <:+ front

theorem forall_byte {p : UInt8 → Prop} (h : ∀ n : Fin 256, p (UInt8.ofFin n)) (c : UInt8) : p c := by
  simpa using h c.toFin

theorem tolower_eq_dot (c : UInt8) : tolower c = dot ↔ c = dot := by
  revert c
  exact forall_byte (by decide +kernel)

theorem tolower_tolower (c : UInt8) : tolower (tolower c) = tolower c := by
  revert c
  exact forall_byte (by decide +kernel)

theorem dot_prefix_map (name : Bytes) : [dot] <+: name.map tolower ↔ [dot] <+: name := by
  cases name with
  | nil => rfl
  | cons c name =>
      rw [List.map_cons, List.cons_prefix_cons, List.cons_prefix_cons, eq_comm, tolower_eq_dot, eq_comm]
      simp

theorem dot_suffix_map (name : Bytes) : [dot] <:+ name.map tolower ↔ [dot] <:+ name := by
  rw [← List.reverse_prefix, ← List.map_reverse, List.reverse_singleton, dot_prefix_map, ← List.reverse_prefix,
    List.reverse_singleton]

theorem pattern_proper {key : Bytes} {form : Form} (h : keyForm key = some form) : (pattern key).Proper := by
  have hdots : ¬[dot, dot] <:+: key := by
    unfold keyForm at h
    split at h
    · cases h
    · rename_i n hcount
      exact countStars_dots hcount
  clear h
  unfold pattern
  split
  · rename_i hkey
    obtain ⟨hlen, hhead⟩ := hkey
    cases key with
    | nil => simp at hlen
    | cons c key =>
        rw [List.head?_cons, Option.some_inj] at hhead
        subst hhead
        refine ⟨?_, ?_⟩
        · intro hnil
          have hkey : key = [] := by simpa using hnil
          simp [hkey] at hlen
        · rw [List.drop_succ_cons, List.drop_zero, dot_prefix_map]
          rintro ⟨t, rfl⟩
          exact hdots ⟨[], t, rfl⟩
  · split
    · rename_i hkey
      obtain ⟨hlen, t, rfl⟩ := hkey
      refine ⟨?_, ?_⟩
      · intro hnil
        have ht : t = [] := by simpa using hnil
        simp [ht] at hlen
      · have hdrop : ([star, dot] ++ t).drop 2 = t := rfl
        rw [hdrop, dot_prefix_map]
        rintro ⟨u, rfl⟩
        exact hdots ⟨[star], u, rfl⟩
    · split
      · rename_i hkey
        obtain ⟨hlen, t, rfl⟩ := hkey
        have htake : (t ++ [dot, star]).take ((t ++ [dot, star]).length - 2) = t := by simp
        refine ⟨?_, ?_⟩
        · rw [htake]
          intro hnil
          have ht : t = [] := by simpa using hnil
          simp [ht] at hlen
        · rw [htake, dot_suffix_map]
          rintro ⟨u, rfl⟩
          exact hdots ⟨u, [star], by simp⟩
      · trivial

-- The entries of the three arrays
def exactKey (name : Bytes × Nat) : Option Key :=
  match pattern name.1 with
  | .exact key => some (plainKey key (hashKey key) name.2)
  | _ => none

def headKey (name : Bytes × Nat) : Option Key :=
  match pattern name.1 with
  | .star suffix => some (plainKey (reverseLabels (dot :: suffix).reverse []) 0 name.2)
  | .dotted suffix => some (plainKey (reverseLabels suffix.reverse []) 0 name.2)
  | _ => none

def tailKey (name : Bytes × Nat) : Option Key :=
  match pattern name.1 with
  | .trailing front => some (plainKey (cpystrn front front.length) 0 name.2)
  | _ => none

-- What an accepted name adds
structure Adds (ha ha' : KeysArrays) (name : Bytes × Nat) : Prop where
  proper : (pattern name.1).Proper
  hsize : ha'.hsize = ha.hsize
  keys : ha'.keys = ha.keys ++ (exactKey name).toList
  head : ha'.dnsWcHead = ha.dnsWcHead ++ (headKey name).toList
  tail : ha'.dnsWcTail = ha.dnsWcTail ++ (tailKey name).toList
  recorded : ∀ i, ∀ key ∈ ha.keysHash i, key ∈ ha'.keysHash i
  fresh : ∀ key, exactKey name = some key →
    key.data ∉ ha.keysHash (key.keyHash % ha.hsize) ∧ key.data ∈ ha'.keysHash (key.keyHash % ha.hsize)

theorem strncmp_self (n : Nat) (name : Bytes) : strncmp n name name = true := by
  induction n generalizing name with
  | zero => rfl
  | succ n ih => simp [strncmp, ih]

theorem not_mem_of_conflicts {name : Bytes} {names : List Bytes} (h : ¬conflicts name names = true) :
    name ∉ names := by
  intro hmem
  apply h
  rw [conflicts, List.any_eq_true]
  exact ⟨name, hmem, by simp [strncmp_self]⟩

theorem addExact_adds {ha ha' : KeysArrays} {key : Bytes} {value : Nat} {name : Bytes × Nat}
    (h : addExact ha key value = .ok ha') (hpattern : pattern name.1 = .exact key) (hvalue : name.2 = value) :
    Adds ha ha' name := by
  simp only [addExact] at h
  split at h
  · cases h
  · rename_i hconflict
    cases h
    have hkey : exactKey name = some (plainKey key (hashKey key) value) := by rw [exactKey, hpattern, hvalue]
    refine ⟨hpattern ▸ trivial, rfl, by rw [hkey]; rfl, by simp [headKey, hpattern], by simp [tailKey, hpattern],
      ?_, ?_⟩
    · intro i other hother
      dsimp only [update]
      split
      · rename_i hi
        exact List.mem_append_left _ (hi ▸ hother)
      · exact hother
    · intro other hother
      rw [hkey, Option.some_inj] at hother
      subst hother
      refine ⟨not_mem_of_conflicts hconflict, ?_⟩
      simp [update, plainKey]

-- The exact names that ".S" is recorded among
def recordDotted (ha : KeysArrays) (name : Bytes) (skip : Nat) : KeysArrays :=
  if skip = 1 then
    { ha with keysHash := update ha.keysHash (hashKey name % ha.hsize) (ha.keysHash (hashKey name % ha.hsize) ++ [name]) }
  else ha

theorem addWildcard_ok {ha ha' : KeysArrays} {key name : Bytes} {skip value : Nat}
    (h : addWildcard ha key name skip value = .ok ha') :
    ha'.hsize = ha.hsize ∧ ha'.keys = ha.keys ∧ ha'.keysHash = (recordDotted ha name skip).keysHash ∧
      ha'.dnsWcHead = ha.dnsWcHead ++
        (if skip ≠ 0 then [plainKey (reverseLabels key.tail.reverse []) 0 value] else []) ∧
      ha'.dnsWcTail = ha.dnsWcTail ++
        (if skip ≠ 0 then [] else [plainKey (cpystrn key name.length) 0 value]) := by
  simp only [addWildcard] at h
  split at h
  · cases h
  · unfold recordDotted
    by_cases hone : skip = 1
    · subst hone
      simp only [if_true, ne_eq, Nat.one_ne_zero, not_false_eq_true] at h ⊢
      split at h
      · cases h
      · cases h
        exact ⟨rfl, rfl, rfl, rfl, (List.append_nil _).symm⟩
    · simp only [if_neg hone] at h ⊢
      split at h
      · rename_i hskip
        rw [if_pos hskip, if_pos hskip]
        split at h
        · cases h
        · cases h
          exact ⟨rfl, rfl, rfl, rfl, (List.append_nil _).symm⟩
      · rename_i hskip
        rw [if_neg hskip, if_neg hskip]
        split at h
        · cases h
        · cases h
          exact ⟨rfl, rfl, rfl, (List.append_nil _).symm, rfl⟩

theorem recordDotted_mono (ha : KeysArrays) (name : Bytes) (skip i : Nat) :
    ∀ key ∈ ha.keysHash i, key ∈ (recordDotted ha name skip).keysHash i := by
  intro key hkey
  unfold recordDotted
  split
  · dsimp only [update]
    split
    · rename_i hi
      exact List.mem_append_left _ (hi ▸ hkey)
    · exact hkey
  · exact hkey

theorem cpystrn_append (name rest : Bytes) : cpystrn (name ++ rest) name.length = cpystrn name name.length := by
  simp only [cpystrn, List.take_left, List.take_length]

theorem addWildcard_adds {ha ha' : KeysArrays} {full key part : Bytes} {skip value : Nat}
    (h : addWildcard ha key part skip value = .ok ha') (hproper : (pattern full).Proper)
    (hexact : exactKey (full, value) = none)
    (hhead : (headKey (full, value)).toList =
      if skip ≠ 0 then [plainKey (reverseLabels key.tail.reverse []) 0 value] else [])
    (htail : (tailKey (full, value)).toList = if skip ≠ 0 then [] else [plainKey (cpystrn key part.length) 0 value]) :
    Adds ha ha' (full, value) := by
  obtain ⟨hsize, hkeys, hhash, hheads, htails⟩ := addWildcard_ok h
  refine ⟨hproper, hsize, ?_, ?_, ?_, ?_, ?_⟩
  · rw [hkeys, hexact]
    exact (List.append_nil _).symm
  · rw [hheads, hhead]
  · rw [htails, htail]
  · rw [hhash]
    exact recordDotted_mono ha part skip
  · intro other hother
    rw [hexact] at hother
    cases hother

theorem addKey_adds {ha ha' : KeysArrays} {key : Bytes} {value : Nat} (h : addKey ha key value true false = .ok ha') :
    Adds ha ha' (key, value) := by
  simp only [addKey, if_true] at h
  cases hform : keyForm key with
  | none => rw [hform] at h; cases h
  | some form =>
      have hproper := pattern_proper hform
      rw [hform] at h
      unfold keyForm at hform
      split at hform
      · cases hform
      · split at hform
        · rename_i hkey
          cases hform
          have hpattern : pattern key = .dotted ((key.drop 1).map tolower) := if_pos hkey
          obtain ⟨c, rest, rfl⟩ := List.exists_cons_of_ne_nil (l := key) (by rintro rfl; simp at hkey)
          apply addWildcard_adds h hproper
          · rw [exactKey, hpattern]
          · rw [headKey, hpattern]
            simp
          · rw [tailKey, hpattern]
            rfl
        · split at hform
          · rename_i hnot hkey
            cases hform
            have hpattern : pattern key = .star ((key.drop 2).map tolower) := by
              rw [pattern, if_neg hnot, if_pos hkey]
            obtain ⟨hlen, rest, rfl⟩ := hkey
            apply addWildcard_adds h hproper
            · rw [exactKey, hpattern]
            · rw [headKey, hpattern]
              simp
            · rw [tailKey, hpattern]
              rfl
          · split at hform
            · rename_i hnot hnot' hkey
              cases hform
              have hpattern : pattern key = .trailing ((key.take (key.length - 2)).map tolower) := by
                rw [pattern, if_neg hnot, if_neg hnot', if_pos hkey]
              apply addWildcard_adds h hproper
              · rw [exactKey, hpattern]
              · rw [headKey, hpattern]
                rfl
              · rw [tailKey, hpattern, List.drop_zero, List.take_zero, List.nil_append, cpystrn_append]
                rfl
            · rename_i hnot hnot' hnot''
              split at hform
              · cases hform
              · cases hform
                apply addExact_adds h _ rfl
                rw [pattern, if_neg hnot, if_neg hnot', if_neg hnot'']
                rfl

-- The exact names are in their hash, which is how equal ones are found.
structure Recorded (ha : KeysArrays) : Prop where
  distinct : (ha.keys.map Key.data).Nodup
  hashed : ∀ key ∈ ha.keys, key.keyHash = hashKey key.data ∧ key.data ∈ ha.keysHash (key.keyHash % ha.hsize)

theorem exactKey_hash {name : Bytes × Nat} {key : Key} (h : exactKey name = some key) :
    key.keyHash = hashKey key.data := by
  rw [exactKey] at h
  split at h
  · cases h
    rfl
  · cases h

theorem Adds.recorded_keep {ha ha' : KeysArrays} {name : Bytes × Nat} (h : Adds ha ha' name) (hrec : Recorded ha) :
    Recorded ha' := by
  have hold : ∀ key ∈ ha.keys, key.keyHash = hashKey key.data ∧
      key.data ∈ ha'.keysHash (key.keyHash % ha'.hsize) := by
    intro key hkey
    obtain ⟨hhash, hmem⟩ := hrec.hashed key hkey
    rw [h.hsize]
    exact ⟨hhash, h.recorded _ _ hmem⟩
  cases hexact : exactKey name with
  | none =>
      have hkeys : ha'.keys = ha.keys := by rw [h.keys, hexact]; exact List.append_nil _
      exact ⟨hkeys ▸ hrec.distinct, hkeys ▸ hold⟩
  | some key =>
      have hkeys : ha'.keys = ha.keys ++ [key] := by rw [h.keys, hexact]; rfl
      obtain ⟨hnew, hmem⟩ := h.fresh key hexact
      have hhash := exactKey_hash hexact
      constructor
      · rw [hkeys, List.map_append, List.nodup_append]
        refine ⟨hrec.distinct, List.pairwise_singleton _ _, ?_⟩
        intro data hdata other hother heq
        obtain ⟨old, hkey, rfl⟩ := List.mem_map.mp hdata
        rw [List.map_singleton, List.mem_singleton] at hother
        apply hnew
        rw [← hother, ← heq, hhash, ← hother, ← heq, ← (hrec.hashed old hkey).1]
        exact (hrec.hashed old hkey).2
      · rw [hkeys]
        intro other hother
        rcases List.mem_append.mp hother with hother | hother
        · exact hold other hother
        · rw [List.mem_singleton] at hother
          rw [hother, h.hsize]
          exact ⟨hhash, hmem⟩

theorem addedAll_cons {ha ha' : KeysArrays} {name : Bytes × Nat} {names : List (Bytes × Nat)}
    (h : addedAll ha (name :: names) = some ha') : ∃ ha₁, Adds ha ha₁ name ∧ addedAll ha₁ names = some ha' := by
  obtain ⟨key, value⟩ := name
  rw [addedAll] at h
  cases hadd : addKey ha key value true false with
  | ok ha₁ =>
      rw [hadd] at h
      exact ⟨ha₁, addKey_adds hadd, h⟩
  | declined => rw [hadd] at h; cases h
  | busy ha₁ => rw [hadd] at h; cases h

-- The arrays after names that have all been accepted
structure Accepted (names : List (Bytes × Nat)) (ha : KeysArrays) : Prop where
  proper : ∀ name ∈ names, (pattern name.1).Proper
  keys : ha.keys = names.filterMap exactKey
  head : ha.dnsWcHead = names.filterMap headKey
  tail : ha.dnsWcTail = names.filterMap tailKey
  distinct : (ha.keys.map Key.data).Nodup

theorem addedAll_spec {ha ha' : KeysArrays} {names : List (Bytes × Nat)} (hrec : Recorded ha)
    (h : addedAll ha names = some ha') :
    (∀ name ∈ names, (pattern name.1).Proper) ∧ ha'.keys = ha.keys ++ names.filterMap exactKey ∧
      ha'.dnsWcHead = ha.dnsWcHead ++ names.filterMap headKey ∧
      ha'.dnsWcTail = ha.dnsWcTail ++ names.filterMap tailKey ∧ Recorded ha' := by
  induction names generalizing ha with
  | nil =>
      cases h
      simpa using hrec
  | cons name names ih =>
      obtain ⟨ha₁, hadds, hrest⟩ := addedAll_cons h
      obtain ⟨hproper, hkeys, hhead, htail, hrec'⟩ := ih (hadds.recorded_keep hrec) hrest
      have hsplit : ∀ f : Bytes × Nat → Option Key,
          (name :: names).filterMap f = (f name).toList ++ names.filterMap f := by
        intro f
        rw [List.filterMap_cons]
        cases f name <;> rfl
      refine ⟨?_, ?_, ?_, ?_, hrec'⟩
      · intro other hother
        rcases List.mem_cons.mp hother with rfl | hother
        · exact hadds.proper
        · exact hproper other hother
      · rw [hkeys, hadds.keys, hsplit, List.append_assoc]
      · rw [hhead, hadds.head, hsplit, List.append_assoc]
      · rw [htail, hadds.tail, hsplit, List.append_assoc]

theorem accepted_of_addedAll {ha : KeysArrays} {names : List (Bytes × Nat)} (h : addedAll .large names = some ha) :
    Accepted names ha := by
  have hrec : Recorded .large := ⟨List.nodup_nil, by simp [KeysArrays.large]⟩
  obtain ⟨hproper, hkeys, hhead, htail, hrec'⟩ := addedAll_spec hrec h
  exact ⟨hproper, hkeys, hhead, htail, hrec'.distinct⟩

-- The rules of the wildcards
def headRule (name : Bytes × Nat) : Option (Rule Bytes Nat) :=
  match pattern name.1 with
  | .star suffix => some ⟨(labels suffix).reverse, true, name.2⟩
  | .dotted suffix => some ⟨(labels suffix).reverse, false, name.2⟩
  | _ => none

def tailRule (name : Bytes × Nat) : Option (Rule Bytes Nat) :=
  match pattern name.1 with
  | .trailing front => some ⟨labels front, false, name.2⟩
  | _ => none

theorem headKey_rule {name : Bytes × Nat} (h : (pattern name.1).Proper) :
    (headKey name).map ruleOf = headRule name := by
  unfold headKey headRule
  split
  · rw [Option.map_some, ruleOf, plainKey, nameLabels_star]
  · rename_i suffix hpattern
    rw [hpattern] at h
    rw [Option.map_some, ruleOf, plainKey, nameLabels_dotted h.1 h.2]
  · rfl

-- ngx_cpystrn keeps a name that has no NUL in front of other bytes.
def Copied (name : Bytes × Nat) : Prop :=
  ∀ front, pattern name.1 = .trailing front → cpystrn front front.length = front

theorem tailKey_rule {name : Bytes × Nat} (h : (pattern name.1).Proper) (hcopied : Copied name) :
    (tailKey name).map ruleOf = tailRule name := by
  unfold tailKey tailRule
  split
  · rename_i front hpattern
    rw [hpattern] at h
    rw [Option.map_some, ruleOf, plainKey, hcopied front hpattern, nameLabels_trailing h.2 h.1]
  · rfl

theorem mem_reverseLabels {s label : Bytes} {c : UInt8} (h : c ∈ reverseLabels s label) : c ∈ s ∨ c ∈ label := by
  induction s generalizing label with
  | nil => exact Or.inr h
  | cons d s ih =>
      rw [reverseLabels] at h
      split at h
      · rename_i hd
        rcases List.mem_append.mp h with h | h
        · exact Or.inr h
        · rcases List.mem_cons.mp h with rfl | h
          · exact Or.inl (hd ▸ List.mem_cons_self)
          · rcases ih h with h | h
            · exact Or.inl (List.mem_cons_of_mem _ h)
            · cases h
      · rcases ih h with h | h
        · exact Or.inl (List.mem_cons_of_mem _ h)
        · rcases List.mem_cons.mp h with rfl | h
          · exact Or.inl List.mem_cons_self
          · exact Or.inr h

theorem map_tolower_eq {name : Bytes} : name.map tolower = name ↔ ∀ c ∈ name, tolower c = c := by
  constructor
  · intro h
    exact List.map_inj_left.mp (h.trans (List.map_id name).symm)
  · intro h
    exact (List.map_inj_left.mpr h).trans (List.map_id name)

theorem pattern_lower (key : Bytes) : ∀ c ∈ (pattern key).text, tolower c = c := by
  have hmap : ∀ name : Bytes, ∀ c ∈ name.map tolower, tolower c = c := by
    intro name c hc
    obtain ⟨d, -, rfl⟩ := List.mem_map.mp hc
    exact tolower_tolower d
  unfold pattern
  split
  · exact hmap _
  · split
    · exact hmap _
    · split
      · exact hmap _
      · exact hmap _

theorem exactKey_lower {name : Bytes × Nat} {key : Key} (h : exactKey name = some key) :
    key.data.map tolower = key.data := by
  have hlower := pattern_lower name.1
  rw [exactKey] at h
  split at h
  · rename_i data hpattern
    rw [hpattern] at hlower
    cases h
    exact map_tolower_eq.mpr hlower
  · cases h

theorem headKey_lower {name : Bytes × Nat} {key : Key} (h : headKey name = some key) :
    key.data.map tolower = key.data := by
  have hlower := pattern_lower name.1
  rw [map_tolower_eq]
  intro c hc
  rw [headKey] at h
  split at h
  · rename_i suffix hpattern
    rw [hpattern] at hlower
    cases h
    rcases mem_reverseLabels hc with hc | hc
    · rcases List.mem_cons.mp (List.mem_reverse.mp hc) with rfl | hc
      · decide
      · exact hlower c hc
    · cases hc
  · rename_i suffix hpattern
    rw [hpattern] at hlower
    cases h
    rcases mem_reverseLabels hc with hc | hc
    · exact hlower c (List.mem_reverse.mp hc)
    · cases hc
  · cases h

theorem tailKey_lower {name : Bytes × Nat} {key : Key} (hcopied : Copied name) (h : tailKey name = some key) :
    key.data.map tolower = key.data := by
  have hlower := pattern_lower name.1
  rw [tailKey] at h
  split at h
  · rename_i front hpattern
    rw [hpattern] at hlower
    cases h
    rw [plainKey, hcopied front hpattern]
    exact map_tolower_eq.mpr hlower
  · cases h

end Nginx.Hash
