import Nginx.Core.Hash.Find

namespace Nginx.Hash

open ByteMemory

variable {cacheline bucketSize size elts : Nat} {names : List Key} {mem mem' : Memory} {hinit : Init}
  {answers : Answers} {table : Table}

-- The counters of a size, in 16 bits, stay within the bucket size, in 16 bits.
def Passes (bucketSize size : Nat) (names : List Key) : Prop :=
  ∀ pre name post, names = pre ++ name :: post → name.null = false →
    toShort (bucketSum size (name.keyHash % size) (pre ++ [name])) ≤ toShort bucketSize

theorem fitsSize_iff (bucketSize size : Nat) (pre rest : List Key) :
    fitsSize bucketSize size rest (fun j => toShort (bucketSum size j pre)) = true ↔
      ∀ mid name post, rest = mid ++ name :: post → name.null = false →
        toShort (bucketSum size (name.keyHash % size) (pre ++ (mid ++ [name]))) ≤ toShort bucketSize := by
  induction rest generalizing pre with
  | nil => simp [fitsSize]
  | cons first rest ih =>
      have htail : (∀ mid name post, rest = mid ++ name :: post → name.null = false →
          toShort (bucketSum size (name.keyHash % size) ((pre ++ [first]) ++ (mid ++ [name]))) ≤ toShort bucketSize) ↔
          ∀ mid name post, first :: rest = (first :: mid) ++ name :: post → name.null = false →
            toShort (bucketSum size (name.keyHash % size) (pre ++ ((first :: mid) ++ [name]))) ≤ toShort bucketSize := by
        simp
      have hsplit : (∀ mid name post, first :: rest = mid ++ name :: post → name.null = false →
          toShort (bucketSum size (name.keyHash % size) (pre ++ (mid ++ [name]))) ≤ toShort bucketSize) ↔
          (first.null = false →
            toShort (bucketSum size (first.keyHash % size) (pre ++ [first])) ≤ toShort bucketSize) ∧
          ∀ mid name post, first :: rest = (first :: mid) ++ name :: post → name.null = false →
            toShort (bucketSum size (name.keyHash % size) (pre ++ ((first :: mid) ++ [name]))) ≤ toShort bucketSize := by
        constructor
        · exact fun h => ⟨fun hnull => h [] first rest rfl hnull, fun mid => h (first :: mid)⟩
        · rintro ⟨hfirst, hrest⟩ mid name post heq hnull
          cases mid with
          | nil =>
              obtain ⟨rfl, -⟩ := List.cons.inj heq
              exact hfirst hnull
          | cons other mid =>
              obtain ⟨rfl, -⟩ := List.cons.inj heq
              exact hrest mid name post heq hnull
      rw [hsplit, ← htail, fitsSize]
      by_cases hnull : first.null = true
      · have hnext := ih (pre ++ [first])
        simp only [bucketSum_null hnull] at hnext
        simp only [hnull, if_true, hnext, Bool.true_eq_false, false_implies, true_and]
      · rw [Bool.not_eq_true] at hnull
        have hnext := ih (pre ++ [first])
        have hsum : toShort (toShort (bucketSum size (first.keyHash % size) pre) + eltSize first) =
            toShort (bucketSum size (first.keyHash % size) (pre ++ [first])) := by
          rw [bucketSum_concat hnull, if_pos rfl]
          unfold toShort
          omega
        simp only [hnull, Bool.false_eq_true, if_false, hsum, true_implies]
        have hstep : update (fun j => toShort (bucketSum size j pre)) (first.keyHash % size)
            (toShort (bucketSum size (first.keyHash % size) (pre ++ [first]))) =
            fun j => toShort (bucketSum size j (pre ++ [first])) := by
          rw [← hsum, update_toShort]
          simp only [bucketSum_concat hnull]
        rw [hstep]
        split
        · simp only [Bool.false_eq_true, false_iff, not_and]
          intro hle
          omega
        · rw [hnext]
          exact ⟨fun h => ⟨by omega, h⟩, And.right⟩

theorem fitsSize_iff_passes (bucketSize size : Nat) (names : List Key) :
    fitsSize bucketSize size names (fun _ => 0) = true ↔ Passes bucketSize size names :=
  fitsSize_iff bucketSize size [] names

theorem findSize_eq_some (bucketSize : Nat) (names : List Key) (n start size : Nat) :
    findSize bucketSize names n start = some size ↔
      start ≤ size ∧ size < start + n ∧ Passes bucketSize size names ∧
        ∀ s, start ≤ s → s < size → ¬ Passes bucketSize s names := by
  induction n generalizing start with
  | zero =>
      rw [findSize]
      constructor
      · intro h
        cases h
      · omega
  | succ n ih =>
      rw [findSize]
      by_cases hfits : fitsSize bucketSize start names (fun _ => 0) = true
      · rw [if_pos hfits]
        rw [fitsSize_iff_passes] at hfits
        constructor
        · rintro ⟨⟩
          exact ⟨Nat.le_refl _, by omega, hfits, by omega⟩
        · rintro ⟨hle, -, -, hfirst⟩
          by_cases heq : start = size
          · rw [heq]
          · exact absurd hfits (hfirst start (Nat.le_refl _) (by omega))
      · rw [if_neg hfits, ih]
        rw [fitsSize_iff_passes] at hfits
        constructor
        · rintro ⟨hle, hlt, hpasses, hfirst⟩
          refine ⟨by omega, by omega, hpasses, fun s hs hs' => ?_⟩
          by_cases heq : start = s
          · rw [← heq]
            exact hfits
          · exact hfirst s (by omega) hs'
        · rintro ⟨hle, hlt, hpasses, hfirst⟩
          have hne : start ≠ size := by
            intro heq
            rw [heq] at hfits
            exact hfits hpasses
          exact ⟨by omega, by omega, hpasses, fun s hs => hfirst s (by omega)⟩

theorem firstSize_pos {nelts start : Nat} (h : firstSize hinit bucketSize nelts = some start) : 0 < start := by
  unfold firstSize at h
  split at h
  · cases h
  · simp only [Option.some.injEq] at h
    split at h
    · omega
    · split at h <;> omega

-- The size that ngx_hash_init takes.
def Taken (hinit : Init) (names : List Key) (size : Nat) : Prop :=
  ∃ start, firstSize hinit (toSize (hinit.bucketSize - 8)) names.length = some start ∧ start ≤ size ∧
    size < hinit.maxSize ∧ Passes (toSize (hinit.bucketSize - 8)) size names ∧
    ∀ s, start ≤ s → s < size → ¬ Passes (toSize (hinit.bucketSize - 8)) s names

theorem Taken.unique {size' : Nat} (h : Taken hinit names size) (h' : Taken hinit names size') : size = size' := by
  obtain ⟨start, hstart, hle, -, hpasses, hfirst⟩ := h
  obtain ⟨start', hstart', hle', -, hpasses', hfirst'⟩ := h'
  rw [hstart, Option.some.injEq] at hstart'
  subst hstart'
  rcases Nat.lt_trichotomy size size' with hlt | heq | hlt
  · exact absurd hpasses (hfirst' size hle hlt)
  · exact heq
  · exact absurd hpasses' (hfirst size' hle' hlt)

theorem Taken.pos (h : Taken hinit names size) : 0 < size := by
  obtain ⟨start, hstart, hle, -⟩ := h
  have hpos := firstSize_pos hstart
  omega

theorem init_eq (h : init cacheline hinit answers names mem = some (some (table, mem'))) :
    ∃ size elts, answers.table ≠ none ∧ answers.elts = some elts ∧ Taken hinit names size ∧
      table = ⟨size, bucketAt cacheline size elts names, storageOf cacheline size names,
        places size (bucketAt cacheline size elts names) [] names⟩ ∧
      mem' = terminate (bucketAt cacheline size elts names) (fun j => toShort (bucketSum size j names)) size 0
        (writeNames size (bucketAt cacheline size elts names) names (fun _ => 0) mem).2.2 := by
  unfold init at h
  split at h
  · cases h
  · split at h
    · cases h
    · simp only [Option.bind_eq_bind, Option.bind_eq_some_iff] at h
      obtain ⟨start, hstart, h⟩ := h
      split at h
      · rename_i size address elts hfind htable helts
        have hstart' := firstSize_pos hstart
        rw [findSize_eq_some] at hfind
        obtain ⟨hle, hlt, hpasses, hfirst⟩ := hfind
        refine ⟨size, elts, by simp [htable], helts, ⟨start, hstart, hle, by omega, hpasses, hfirst⟩, ?_⟩
        have hcount : (fun i => alignCounter cacheline (countNames size names (fun _ => 8) i)) =
            storageOf cacheline size names := by
          have heq := countNames_eq size names (fun _ => 8)
          funext i
          exact congrArg (alignCounter cacheline) (congrFun heq i)
        have hplace : placeBuckets (storageOf cacheline size names) size 0 (align elts cacheline) (fun _ => 0) =
            bucketAt cacheline size elts names := by
          funext j
          have heq := placeBuckets_eq (storageOf cacheline size names) size 0 (align elts cacheline) (fun _ => 0) j
          rw [before, Nat.add_zero] at heq
          rw [heq, bucketAt]
          simp
        obtain ⟨hplaced, hcounts⟩ := writeNames_places size (bucketAt cacheline size elts names) [] names mem
        have hzero : (fun j => toShort (bucketSum size j [])) = fun _ => 0 := rfl
        rw [hzero] at hplaced hcounts
        simp only [hcount, hplace, hplaced, hcounts, List.nil_append] at h
        cases h
        exact ⟨rfl, rfl⟩
      · cases h

-- What is promised of a table.
structure Agrees (names : List Key) (table : Table) (mem : Memory) : Prop where
  elements : table.placed.map Prod.snd = names.filter fun name => !name.null
  inside : ∀ elt name, (elt, name) ∈ table.placed →
    table.buckets (name.keyHash % table.size) ≠ 0 ∧ table.buckets (name.keyHash % table.size) ≤ elt ∧
      elt + (eltBytes name).length ≤
        table.buckets (name.keyHash % table.size) + table.storage (name.keyHash % table.size)
  apart : ∀ i j, i < table.size → j < table.size → i ≠ j → table.buckets i ≠ 0 → table.buckets j ≠ 0 →
    table.buckets i + table.storage i ≤ table.buckets j ∨ table.buckets j + table.storage j ≤ table.buckets i
  found : ∀ name ∈ names, name.null = false → ∀ fuel, names.length < fuel →
    find fuel table mem (hashKey name.data) name.data = some name.value
  missing : ∀ key, (∀ name ∈ names, name.null = false → name.data ≠ key) → ∀ fuel, names.length < fuel →
    find fuel table mem (hashKey key) key = some 0

theorem find_stored (hcache : CachelineSize cacheline) (helts : elts ≠ 0) (hroomy : Roomy cacheline size names)
    (hkeys : Keys names) (hfilled : Filled cacheline size elts names mem) (hsize : 0 < size)
    (placed : List (Nat × Key)) (n : Nat) (key : Bytes) (fuel : Nat) (hfuel : names.length < fuel) :
    find fuel ⟨size, bucketAt cacheline size elts names, storageOf cacheline size names, placed⟩ mem n key =
      some (stored size (n % size) key names) := by
  rw [find]
  by_cases hsum : bucketSum size (n % size) names = 0
  · rw [if_pos (bucketAt_empty hsum), stored_of_empty hsum]
  · rw [if_neg (hroomy.bucket hcache helts (Nat.mod_lt n hsize) hsum).1]
    exact findElt_stored hcache helts hroomy hkeys hfilled (Nat.mod_lt n hsize) hsum key [] names rfl fuel hfuel

theorem agrees_of_roomy (hcache : CachelineSize cacheline) (helts : elts ≠ 0) (hkeys : Keys names) (hsize : 0 < size)
    (hroomy : Roomy cacheline size names) (hfilled : Filled cacheline size elts names mem) :
    Agrees names ⟨size, bucketAt cacheline size elts names, storageOf cacheline size names,
      places size (bucketAt cacheline size elts names) [] names⟩ mem := by
  constructor
  · exact places_names _ _ _
  · intro elt name hplaced
    obtain ⟨pre, post, hnames, hnull, helt⟩ := (mem_places [] names elt name).mp hplaced
    have hi := Nat.mod_lt name.keyHash hsize
    have hsum : bucketSum size (name.keyHash % size) names ≠ 0 := by
      rw [hnames]
      exact bucketSum_pos_of_mem hnull pre post
    have hle : bucketSum size (name.keyHash % size) pre + eltSize name ≤ bucketSum size (name.keyHash % size) names := by
      rw [hnames]
      exact bucketSum_split hnull pre post
    have hlt := hroomy.sum_lt hcache hi
    have hstorage := (hroomy.storage hcache hi hsum).2
    have hbounds := (eltSize_bounds name).1
    have hshort : toShort (bucketSum size (name.keyHash % size) pre) = bucketSum size (name.keyHash % size) pre :=
      Nat.mod_eq_of_lt (by omega)
    rw [List.nil_append, hshort] at helt
    refine ⟨(hroomy.bucket hcache helts hi hsum).1, ?_, ?_⟩
    · rw [helt]
      exact Nat.le_add_right _ _
    rw [helt, eltBytes_length]
    show _ ≤ bucketAt cacheline size elts names (name.keyHash % size) + storageOf cacheline size names (name.keyHash % size)
    omega
  · intro i j _ _ hij hi hj
    rcases Nat.lt_or_gt_of_ne hij with hlt | hlt
    · exact Or.inl (bucketAt_apart hlt hi hj)
    · exact Or.inr (bucketAt_apart hlt hj hi)
  · intro name hname hnull fuel hfuel
    rw [find_stored hcache helts hroomy hkeys hfilled hsize _ _ _ fuel hfuel, stored_of_mem hkeys hname hnull]
  · intro key hkey fuel hfuel
    rw [find_stored hcache helts hroomy hkeys hfilled hsize _ _ _ fuel hfuel, stored_of_not_mem hkeys hkey]

-- In a bucket whose counter has wrapped, the storage is empty or ends in front of an element.
theorem exists_outside (hcache : CachelineSize cacheline) {i : Nat} (hsum : bucketSum size i names ≠ 0)
    (hfull : 2 ^ 16 ≤ align (8 + bucketSum size i names) cacheline) :
    ∃ pre name post, names = pre ++ name :: post ∧ name.null = false ∧ name.keyHash % size = i ∧
      storageOf cacheline size names i < toShort (bucketSum size i pre) + (10 + name.data.length) := by
  obtain ⟨-, hdvd, hpos⟩ := hcache.dvd
  by_cases hlt : bucketSum size i names < 2 ^ 16
  · have hzero : storageOf cacheline size names i = 0 := by
      have h8 := bucketSum_dvd size i names
      by_cases hwrap : 8 + bucketSum size i names = 2 ^ 16
      · rw [storageOf, hwrap, toShort, Nat.mod_self, alignCounter, if_neg (by decide), align, Nat.zero_add,
          Nat.div_eq_of_lt (by omega)]
        simp [toShort]
      · have hle := le_align (8 + bucketSum size i names) cacheline hpos
        have hge : align (8 + bucketSum size i names) cacheline ≤ 2 ^ 16 := by
          obtain ⟨n, hn⟩ := hdvd
          obtain ⟨m, hm⟩ := dvd_align (8 + bucketSum size i names) cacheline
          have hclose := align_lt (8 + bucketSum size i names) cacheline hpos
          rw [hm] at hclose ⊢
          rw [hn]
          refine Nat.mul_le_mul_left _ ?_
          by_contra hmn
          have hstep : cacheline * (n + 1) ≤ cacheline * m := Nat.mul_le_mul_left _ (by omega)
          rw [Nat.mul_succ] at hstep
          omega
        have heq : align (8 + bucketSum size i names) cacheline = 2 ^ 16 := by omega
        rw [storageOf, toShort, Nat.mod_eq_of_lt (by omega), alignCounter, if_neg (by omega), heq]
        rfl
    obtain ⟨pre, name, post, hnames, hnull, hkey⟩ := exists_of_bucketSum hsum
    exact ⟨pre, name, post, hnames, hnull, hkey, by omega⟩
  · obtain ⟨pre, name, post, hnames, hnull, hkey, hpre, hcross⟩ :=
      exists_first_crossing size i names (Nat.two_pow_pos 16) (by omega)
    have hbounds := (eltSize_bounds name).2.1
    have hstorage : storageOf cacheline size names i ≤ 2 ^ 16 - 8 := by
      by_cases h8 : storageOf cacheline size names i = 8
      · omega
      · have hmul : 8 ∣ storageOf cacheline size names i :=
          Nat.dvd_trans hcache.dvd.1 (dvd_storageOf hcache h8)
        have hshort : storageOf cacheline size names i < 2 ^ 16 := by
          unfold storageOf alignCounter at h8 ⊢
          split
          · omega
          · exact Nat.mod_lt _ (by decide)
        omega
    refine ⟨pre, name, post, hnames, hnull, hkey, ?_⟩
    rw [toShort, Nat.mod_eq_of_lt hpre]
    omega

theorem roomy_of_inside (hcache : CachelineSize cacheline)
    (hinside : ∀ elt name, (elt, name) ∈ places size (bucketAt cacheline size elts names) [] names →
      elt + (eltBytes name).length ≤
        bucketAt cacheline size elts names (name.keyHash % size) + storageOf cacheline size names (name.keyHash % size)) :
    Roomy cacheline size names := by
  intro i _ hsum
  by_contra hfull
  obtain ⟨pre, name, post, hnames, hnull, rfl, houtside⟩ := exists_outside hcache hsum (by omega)
  have hend := hinside _ name ((mem_places [] names _ name).mpr ⟨pre, post, hnames, hnull, rfl⟩)
  rw [eltBytes_length, List.nil_append] at hend
  omega

-- When the table that ngx_hash_init makes, if it makes one, has room in its buckets.
def Meets (cacheline : Nat) (hinit : Init) (answers : Answers) (names : List Key) : Prop :=
  (∃ name ∈ names, hinit.bucketSize < eltSize name + 8) ∨ answers.test = false ∨ answers.table = none ∨
    answers.elts = none ∨ ∀ size, Taken hinit names size → Roomy cacheline size names

theorem exists_init (htest : answers.test = true) {address : Nat} (htable : answers.table = some address)
    (helts : answers.elts = some elts) (hsizes : ¬ ∃ name ∈ names, hinit.bucketSize < eltSize name + 8)
    (htaken : Taken hinit names size) (mem : Memory) :
    ∃ table mem', init cacheline hinit answers names mem = some (some (table, mem')) := by
  have hany : (names.any fun name => decide (hinit.bucketSize < eltSize name + 8)) = false := by
    rw [Bool.eq_false_iff, Ne, List.any_eq_true]
    rintro ⟨name, hname, hlt⟩
    exact hsizes ⟨name, hname, of_decide_eq_true hlt⟩
  obtain ⟨start, hstart, hle, hlt, hpasses, hfirst⟩ := htaken
  have hfind : findSize (toSize (hinit.bucketSize - 8)) names (hinit.maxSize - start) start = some size := by
    rw [findSize_eq_some]
    exact ⟨hle, by omega, hpasses, hfirst⟩
  simp only [init, hany, htest, htable, helts, hstart, hfind, Option.bind_eq_bind, Option.bind_some,
    Bool.not_true, Bool.false_eq_true, if_false]
  exact ⟨_, _, rfl⟩

theorem roomy_of_agrees (hcache : CachelineSize cacheline) (htaken : Taken hinit names size)
    (hmade : init cacheline hinit answers names mem = some (some (table, mem'))) (hagrees : Agrees names table mem') :
    Roomy cacheline size names := by
  obtain ⟨size', elts, -, -, htaken', htable, -⟩ := init_eq hmade
  obtain rfl := htaken.unique htaken'
  rw [htable] at hagrees
  exact roomy_of_inside hcache fun elt name hplaced => (hagrees.inside elt name hplaced).2.2

theorem roomy_of_meets (hmeets : Meets cacheline hinit answers names)
    (hmade : init cacheline hinit answers names mem = some (some (table, mem'))) (htaken : Taken hinit names size) :
    Roomy cacheline size names := by
  obtain ⟨size', elts, htable, helts, -⟩ := init_eq hmade
  unfold init at hmade
  rcases hmeets with ⟨name, hname, hlt⟩ | htest | hnone | hnone | hroomy
  · rw [if_pos (List.any_eq_true.mpr ⟨name, hname, decide_eq_true hlt⟩)] at hmade
    cases hmade
  · rw [htest] at hmade
    split at hmade <;> cases hmade
  · exact absurd hnone htable
  · rw [hnone] at helts
    cases helts
  · exact hroomy size htaken

theorem init_agrees_iff (hcache : CachelineSize cacheline) (helts : answers.elts ≠ some 0) (hkeys : Keys names) :
    (∀ table mem', init cacheline hinit answers names mem = some (some (table, mem')) → Agrees names table mem') ↔
      Meets cacheline hinit answers names := by
  constructor
  · intro h
    by_cases hsizes : ∃ name ∈ names, hinit.bucketSize < eltSize name + 8
    · exact Or.inl hsizes
    by_cases htest : answers.test = false
    · exact Or.inr (Or.inl htest)
    rcases htable : answers.table with _ | address
    · exact Or.inr (Or.inr (Or.inl htable))
    rcases hsome : answers.elts with _ | elts
    · exact Or.inr (Or.inr (Or.inr (Or.inl hsome)))
    refine Or.inr (Or.inr (Or.inr (Or.inr ?_)))
    intro size htaken
    rw [Bool.not_eq_false] at htest
    obtain ⟨table, mem', hmade⟩ := exists_init htest htable hsome hsizes htaken mem
    exact roomy_of_agrees hcache htaken hmade (h table mem' hmade)
  · intro hmeets table mem' hmade
    obtain ⟨size, elts, -, hsome, htaken, htable, hmem⟩ := init_eq hmade
    have hroomy := roomy_of_meets hmeets hmade htaken
    have hne : elts ≠ 0 := by
      intro hzero
      rw [hzero] at hsome
      exact helts hsome
    rw [htable, hmem]
    exact agrees_of_roomy hcache hne hkeys htaken.pos hroomy (filled hcache hne hroomy htaken.pos mem)

-- Buckets of up to 32 kilobytes have room.
theorem meets_of_small (hcache : CachelineSize cacheline) (hsmall : hinit.bucketSize ≤ 2 ^ 15) (answers : Answers)
    (names : List Key) : Meets cacheline hinit answers names := by
  by_cases hsizes : ∃ name ∈ names, hinit.bucketSize < eltSize name + 8
  · exact Or.inl hsizes
  refine Or.inr (Or.inr (Or.inr (Or.inr ?_)))
  rintro size ⟨start, -, -, -, hpasses, -⟩ i - hsum
  have hfits : ∀ name ∈ names, eltSize name + 8 ≤ hinit.bucketSize := by
    intro name hname
    by_contra hlt
    exact hsizes ⟨name, hname, by omega⟩
  obtain ⟨pre, name, post, hnames, hnull, hkey⟩ := exists_of_bucketSum hsum
  have hname := hfits name (by rw [hnames]; simp)
  have hbucket : toShort (toSize (hinit.bucketSize - 8)) = hinit.bucketSize - 8 := by
    unfold toShort toSize
    omega
  have hle : bucketSum size i names ≤ hinit.bucketSize - 8 := by
    by_contra hgt
    obtain ⟨pre, name, post, hnames, hnull, rfl, hpre, hcross⟩ :=
      exists_first_crossing size i names (Nat.succ_pos (hinit.bucketSize - 8)) (by omega)
    have hone := hfits name (by rw [hnames]; simp)
    have hpass := hpasses pre name post hnames hnull
    rw [bucketSum_concat hnull, if_pos rfl, hbucket, toShort] at hpass
    omega
  obtain ⟨k, -, hk, rfl⟩ := hcache
  obtain ⟨n, hn⟩ : 2 ^ k ∣ 2 ^ 15 := pow_dvd_pow 2 hk
  have hlt := align_lt (8 + bucketSum size i names) (2 ^ k) (Nat.two_pow_pos k)
  have hpow : 2 ^ k ≤ 2 ^ 15 := Nat.pow_le_pow_right (by decide) hk
  omega

theorem init_agrees_iff_server_name :
    ∃ table mem', init 64 ⟨512, 64⟩ ⟨true, some 4096, some 8192⟩
        [⟨ngxString "a.b", false, hashKey (ngxString "a.b"), 1⟩] (fun _ => 0) = some (some (table, mem')) ∧
      Agrees [⟨ngxString "a.b", false, hashKey (ngxString "a.b"), 1⟩] table mem' := by
  have hmade : ((init 64 ⟨512, 64⟩ ⟨true, some 4096, some 8192⟩
      [⟨ngxString "a.b", false, hashKey (ngxString "a.b"), 1⟩] (fun _ => 0)).bind id).isSome := by decide
  obtain ⟨⟨table, mem'⟩, hsome⟩ := Option.isSome_iff_exists.mp hmade
  obtain ⟨result, hresult, rfl⟩ := Option.bind_eq_some_iff.mp hsome
  exact ⟨table, mem', hresult, (init_agrees_iff ⟨6, by decide, by decide, rfl⟩ (by decide)
    ⟨by decide, by decide, by decide, by simp⟩).mpr (meets_of_small ⟨6, by decide, by decide, rfl⟩ (by decide) _ _)
    table mem' hresult⟩

def longName : Key := ⟨List.replicate 65510 97, false, hashKey (List.replicate 65510 97), 1⟩

theorem longName_keys : Keys [longName] := by
  have hlower : longName.data.map tolower = longName.data := by
    show (List.replicate 65510 97).map tolower = List.replicate 65510 97
    rw [List.map_replicate]
    rfl
  refine ⟨?_, ?_, ?_, ?_⟩
  · exact List.nodup_cons.mpr ⟨List.not_mem_nil, List.nodup_nil⟩
  · intro name hname _
    rw [List.mem_singleton.mp hname]
    exact hlower
  · intro name hname _
    rw [List.mem_singleton.mp hname]
    exact ⟨Nat.one_ne_zero, Nat.one_lt_two_pow (by decide)⟩
  · intro name hname _
    rw [List.mem_singleton.mp hname, longName]

theorem longName_eltSize : eltSize longName = 65520 := by
  have hlen : longName.data.length = 65510 := List.length_replicate
  rw [eltSize, hlen]
  rfl

theorem longName_sum : bucketSum 1 0 [longName] = 65520 := by
  rw [bucketSum, if_pos ⟨rfl, Nat.mod_one _⟩, longName_eltSize, bucketSum]

theorem longName_taken : Taken ⟨2, 65528⟩ [longName] 1 := by
  refine ⟨1, by simp [firstSize, toSize], Nat.le_refl 1, by decide, ?_, by omega⟩
  intro pre name post heq _
  rcases List.append_eq_singleton_iff.mp heq.symm with ⟨rfl, hname⟩ | ⟨-, hname⟩
  · rw [List.cons.injEq] at hname
    rw [hname.1, Nat.mod_one, List.nil_append, longName_sum]
    decide
  · cases hname

-- The element takes 65520 bytes, and the counter of its bucket is aligned to 65536, which is 0.
theorem long_name_outside :
    ¬ ∀ table mem', init 64 ⟨2, 65528⟩ ⟨true, some 4096, some 8192⟩ [longName] (fun _ => 0) = some (some (table, mem')) →
      Agrees [longName] table mem' := by
  intro h
  have hsizes : ¬ ∃ name ∈ [longName], 65528 < eltSize name + 8 := by
    rintro ⟨name, hname, hlt⟩
    rw [List.mem_singleton.mp hname, longName_eltSize] at hlt
    omega
  obtain ⟨table, mem', hmade⟩ : ∃ table mem', init 64 ⟨2, 65528⟩ ⟨true, some 4096, some 8192⟩ [longName]
      (fun _ => 0) = some (some (table, mem')) := exists_init rfl rfl rfl hsizes longName_taken _
  have hroomy := roomy_of_agrees ⟨6, by decide, by decide, rfl⟩ longName_taken hmade (h table mem' hmade)
  have hlt := hroomy 0 Nat.one_pos (by rw [longName_sum]; decide)
  rw [longName_sum] at hlt
  exact absurd hlt (by decide)

end Nginx.Hash
