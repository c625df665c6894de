import Nginx.Http.Location.Search

namespace Nginx.Location

open FirstDifference

variable {α : Type}

theorem memcmp_below (s t : Bytes) (n : Nat) (h : Below UInt8.toNat s t) (hn : s.length ≤ n ∨ t.length ≤ n) :
    memcmp s t n < 0 ∧ 0 < memcmp t s n := by
  induction h generalizing n with
  | head x y as bs hxy =>
      have hne : x ≠ y := by
        rintro rfl
        exact lt_irrefl _ hxy
      cases n with
      | zero => simp at hn
      | succ n =>
          rw [memcmp, memcmp, if_neg hne, if_neg hne.symm]
          constructor <;> omega
  | tail x as bs h ih =>
      cases n with
      | zero => simp at hn
      | succ n =>
          rw [memcmp, memcmp, if_pos rfl, if_pos rfl]
          exact ih n (by simpa using hn)

theorem memcmp_begins (s t : Bytes) (n : Nat) (h : s <+: t) : memcmp s t n = 0 ∧ memcmp t s n = 0 := by
  induction s generalizing t n with
  | nil => cases t <;> simp [memcmp]
  | cons c s ih =>
      cases t with
      | nil => simp at h
      | cons d t =>
          obtain ⟨rfl, htail⟩ := List.cons_prefix_cons.mp h
          cases n with
          | zero => simp [memcmp]
          | succ n =>
              rw [memcmp, memcmp, if_pos rfl, if_pos rfl]
              exact ih t n htail

section

variable (left right tree : Node α) (exact inclusive : Option (Clcf α)) (autoRedirect : Bool) (nodeLen : UInt8)
  (name uri : Bytes) (rv : Rc) (own : α) (hlen : nodeLen.toNat = name.length)

include hlen

theorem find_below (h : Below UInt8.toNat uri name) :
    findStaticLocation (.node left right tree exact inclusive autoRedirect nodeLen name) uri rv own =
      findStaticLocation left uri rv own := by
  have hn : uri.length ≤ (if uri.length ≤ nodeLen.toNat then uri.length else nodeLen.toNat) ∨
      name.length ≤ (if uri.length ≤ nodeLen.toNat then uri.length else nodeLen.toNat) := by
    split <;> omega
  have hcmp := (memcmp_below uri name _ h hn).1
  rw [findStaticLocation.eq_def]
  dsimp only
  rw [if_pos (by omega), if_pos hcmp]

theorem find_above (h : Below UInt8.toNat name uri) :
    findStaticLocation (.node left right tree exact inclusive autoRedirect nodeLen name) uri rv own =
      findStaticLocation right uri rv own := by
  have hn : name.length ≤ (if uri.length ≤ nodeLen.toNat then uri.length else nodeLen.toNat) ∨
      uri.length ≤ (if uri.length ≤ nodeLen.toNat then uri.length else nodeLen.toNat) := by
    split <;> omega
  have hcmp := (memcmp_below name uri _ h hn).2
  rw [findStaticLocation.eq_def]
  dsimp only
  rw [if_pos (by omega), if_neg (by omega)]

theorem find_under (clcf : Clcf α) (hinc : inclusive = some clcf) (h : name <+: uri) (hlt : name.length < uri.length) :
    findStaticLocation (.node left right tree exact inclusive autoRedirect nodeLen name) uri rv own =
      findStaticLocation tree (uri.drop name.length) .again clcf.locConf := by
  rw [findStaticLocation.eq_def]
  dsimp only
  rw [(memcmp_begins name uri _ h).2, if_neg (by simp), if_pos (by omega), if_neg (by omega), hlen, hinc]

theorem find_exact_only (hinc : inclusive = none) (h : name <+: uri) (hlt : name.length < uri.length) :
    findStaticLocation (.node left right tree exact inclusive autoRedirect nodeLen name) uri rv own =
      findStaticLocation right uri rv own := by
  rw [findStaticLocation.eq_def]
  dsimp only
  rw [(memcmp_begins name uri _ h).2, if_neg (by simp), if_pos (by omega), hinc]

theorem find_equal (h : name = uri) :
    findStaticLocation (.node left right tree exact inclusive autoRedirect nodeLen name) uri rv own =
      match exact with
      | some clcf => some (.ok, clcf.locConf)
      | none => inclusive.map fun clcf => (.again, clcf.locConf) := by
  subst h
  rw [findStaticLocation.eq_def]
  dsimp only
  rw [(memcmp_begins name name _ List.prefix_rfl).1, if_neg (by simp), if_neg (by omega)]
  exact if_pos (by omega)

theorem find_redirect (clcf : Clcf α) (hfirst : exact.or inclusive = some clcf)
    (hred : autoRedirect = true) (h : uri <+: name) (hnext : uri.length + 1 = name.length) :
    findStaticLocation (.node left right tree exact inclusive autoRedirect nodeLen name) uri rv own =
      findStaticLocation left uri .done clcf.locConf := by
  rw [findStaticLocation.eq_def]
  dsimp only
  rw [(memcmp_begins uri name _ h).1, if_neg (by simp), if_neg (by omega), if_neg (by omega),
    if_pos ⟨by omega, hred⟩, hfirst]

theorem find_shorter (h : uri <+: name) (hlt : uri.length < name.length)
    (hno : uri.length + 1 = name.length → autoRedirect = false) :
    findStaticLocation (.node left right tree exact inclusive autoRedirect nodeLen name) uri rv own =
      findStaticLocation left uri rv own := by
  have hnext : ¬(uri.length + 1 = nodeLen.toNat ∧ autoRedirect = true) := by
    rintro ⟨hnext, hred⟩
    rw [hno (by omega)] at hred
    exact absurd hred (by simp)
  rw [findStaticLocation.eq_def]
  dsimp only
  rw [(memcmp_begins uri name _ h).1, if_neg (by simp), if_neg (by omega), if_neg (by omega), if_neg hnext]

end

theorem createLocationsTree_nil (n pre : Nat) : createLocationsTree n ([] : List (Lq α × Locations α)) pre = .null := by
  cases n <;> simp [createLocationsTree, Queue.middle]

-- The node of a queue: its middle element between the trees of the two halves
theorem createLocationsTree_split (n pre : Nat) (locations : List (Lq α × Locations α)) (hne : locations ≠ []) :
    ∃ left lq list tail, locations = left ++ (lq, list) :: tail ∧
      createLocationsTree (n + 1) locations pre =
        .node (createLocationsTree n left pre) (createLocationsTree n tail pre)
          (createLocationsTree n list.level (pre + (lq.name.length - pre))) lq.exact lq.inclusive lq.redirects
          (UInt8.ofNat (lq.name.length - pre)) (lq.name.drop pre) := by
  have hpos : 0 < locations.length := List.length_pos_iff.mpr hne
  have hhalf : locations.length / 2 < locations.length := by omega
  obtain ⟨⟨lq, list⟩, hblock⟩ : ∃ block, locations[locations.length / 2] = block := ⟨_, rfl⟩
  have hmiddle : Queue.middle locations = (lq, list) :: locations.drop (locations.length / 2 + 1) := by
    rw [Queue.middle_eq, List.drop_eq_getElem_cons hhalf, hblock]
  have htail : locations.length - ((locations.drop (locations.length / 2 + 1)).length + 1) =
      locations.length / 2 := by
    rw [List.length_drop]
    omega
  refine ⟨locations.take (locations.length / 2), lq, list, locations.drop (locations.length / 2 + 1), ?_, ?_⟩
  · rw [← hblock, ← List.drop_eq_getElem_cons hhalf, List.take_append_drop]
  · rw [createLocationsTree, hmiddle]
    dsimp only
    rw [htail]
    have hleft : (if (locations.take (locations.length / 2)).isEmpty then Node.null
        else createLocationsTree n (locations.take (locations.length / 2)) pre) =
          createLocationsTree n (locations.take (locations.length / 2)) pre := by
      split
      · rename_i hempty
        rw [List.isEmpty_iff.mp hempty, createLocationsTree_nil]
      · rfl
    have hright : (if (locations.take (locations.length / 2)).isEmpty ||
        (locations.drop (locations.length / 2 + 1)).isEmpty then Node.null
        else createLocationsTree n (locations.drop (locations.length / 2 + 1)) pre) =
          createLocationsTree n (locations.drop (locations.length / 2 + 1)) pre := by
      split
      · rename_i hempty
        have hnil : locations.drop (locations.length / 2 + 1) = [] := by
          rcases Bool.or_eq_true_iff.mp hempty with hl | hr
          · -- the left half is empty only in a queue of one element
            rw [List.isEmpty_iff, List.take_eq_nil_iff] at hl
            rcases hl with hzero | hnil
            · exact List.drop_eq_nil_of_le (by omega)
            · exact absurd hnil hne
          · exact List.isEmpty_iff.mp hr
        rw [hnil, createLocationsTree_nil]
      · rfl
    have htree : (if list.level.isEmpty then Node.null
        else createLocationsTree n list.level (pre + (lq.name.length - pre))) =
          createLocationsTree n list.level (pre + (lq.name.length - pre)) := by
      split
      · rename_i hempty
        rw [List.isEmpty_iff.mp hempty, createLocationsTree_nil]
      · rfl
    rw [hleft, hright, htree]
    rfl

structure Sound (lq : Lq α) : Prop where
  held : ∃ clcf, lq.first = some clcf
  slash : lq.redirects = true → [slash] <:+ lq.name

theorem slashed_of_redirects {lq : Lq α} (h : Sound lq) (hred : lq.redirects = true) (uri : Bytes)
    (hpre : uri <+: lq.name) (hlen : uri.length + 1 = lq.name.length) : lq.name = slashed uri := by
  obtain ⟨rest, hrest⟩ := hpre
  obtain ⟨start, hstart⟩ := h.slash hred
  have hlens : start.length = uri.length := by
    rw [← hstart, List.length_append, List.length_singleton] at hlen
    omega
  have huri : uri = start := by
    rw [← hstart] at hrest
    exact (List.append_inj hrest hlens.symm).1
  rw [slashed, huri, hstart]

-- The search in the tree of a queue, for a URI that begins with what its names begin with
theorem find_answer (n : Nat) (locations : List (Lq α × Locations α)) (pre rest : Bytes) (rv : Rc) (own : α)
    (hn : (entriesOf locations).length ≤ n) (hlevel : Level pre locations)
    (hsound : ∀ lq ∈ entriesOf locations, Sound lq) :
    ∃ rc locConf,
      findStaticLocation (createLocationsTree n locations pre.length) rest rv own = some (rc, locConf) ∧
        Answer (entriesOf locations) (pre ++ rest) rv own rc locConf := by
  induction n generalizing locations pre rest rv own with
  | zero =>
      have hnil : entriesOf locations = [] := List.length_eq_zero_iff.mp (Nat.le_zero.mp hn)
      refine ⟨rv, own, rfl, ?_⟩
      rw [hnil]
      exact Answer.nothing (by simp [NoMatch]) (Or.inl (by simp [NoRedirect])) (by simp)
  | succ n ih =>
      by_cases hne : locations = []
      · subst hne
        rw [createLocationsTree_nil]
        exact ⟨rv, own, rfl, Answer.nothing (by simp [NoMatch, entriesOf])
          (Or.inl (by simp [NoRedirect, entriesOf])) (by simp [entriesOf])⟩
      · obtain ⟨left, lq, list, tail, rfl, htree⟩ := createLocationsTree_split n pre.length locations hne
        have hblock := level_block hlevel
        obtain ⟨hleftLevel, htailLevel, -, -⟩ := hlevel.split
        have hmemLeft : ∀ lx ∈ entriesOf left, lx ∈ entriesOf (left ++ (lq, list) :: tail) :=
          fun lx hlx => (mem_entriesOf_split lx).mpr (Or.inl hlx)
        have hmemTail : ∀ lx ∈ entriesOf tail, lx ∈ entriesOf (left ++ (lq, list) :: tail) :=
          fun lx hlx => (mem_entriesOf_split lx).mpr (Or.inr (Or.inr hlx))
        have hmemList : ∀ lx ∈ entriesOf list.level, lx ∈ entriesOf (left ++ (lq, list) :: tail) := by
          intro lx hlx
          rw [entriesOf_level] at hlx
          exact (mem_entriesOf_split lx).mpr (Or.inr (Or.inl (Or.inr hlx)))
        have hmemLq : lq ∈ entriesOf (left ++ (lq, list) :: tail) :=
          (mem_entriesOf_split lq).mpr (Or.inr (Or.inl (Or.inl rfl)))
        have hcount : (entriesOf (left ++ (lq, list) :: tail)).length =
            (entriesOf left).length + (1 + (entriesOf list.level).length) + (entriesOf tail).length := by
          rw [entriesOf_level]
          simp only [entriesOf, List.flatMap_append, List.flatMap_cons, List.length_append,
            List.length_cons]
          omega
        obtain ⟨name, hname⟩ := hblock.begins
        dsimp only at hname
        have hdrop : lq.name.drop pre.length = name := by rw [← hname, List.drop_left]
        have hlength : lq.name.length = pre.length + name.length := by rw [← hname, List.length_append]
        have hshort : name.length ≤ 255 := by
          have hle := hblock.short
          dsimp only at hle
          omega
        have hlen : (UInt8.ofNat (lq.name.length - pre.length)).toNat = name.length := by
          rw [UInt8.toNat_ofNat']
          omega
        have hpreLen : pre.length + (lq.name.length - pre.length) = lq.name.length := by omega
        rw [htree, hdrop, hpreLen]
        rcases less_or toNat_injective rest name with (hbelow | ⟨hlonger, hlt⟩) | heq | (habove | ⟨hshorter, hlt⟩)
        · obtain ⟨rc, locConf, hfind, hanswer⟩ := ih left pre rest rv own (by omega) hleftLevel
            (fun lx hlx => hsound lx (hmemLeft lx hlx))
          have hless : NameLess (pre ++ rest) lq.name := by
            rw [← hname]
            exact Or.inl ((below_append_iff pre).mpr hbelow)
          have hno : lq.name = slashed (pre ++ rest) → lq.redirects = false := by
            intro heq
            rw [← hname, slashed, List.append_assoc, List.append_cancel_left_eq] at heq
            exact absurd (heq ▸ List.prefix_append rest [slash]) hbelow.not_start
          refine ⟨rc, locConf, ?_, answer_left hlevel hless hno hanswer⟩
          rw [find_below _ _ _ _ _ _ _ _ _ _ _ hlen hbelow, hfind]
        · have huri : pre ++ rest <+: lq.name := hname ▸ (List.prefix_append_right_inj pre).mpr hlonger
          have hless : NameLess (pre ++ rest) lq.name := by
            refine Or.inr ⟨huri, ?_⟩
            rw [List.length_append]
            omega
          by_cases hred : rest.length + 1 = name.length ∧ lq.redirects = true
          · obtain ⟨clcf, hfirst⟩ := (hsound lq hmemLq).held
            have hslashed : lq.name = slashed (pre ++ rest) :=
              slashed_of_redirects (hsound lq hmemLq) hred.2 _ huri (by rw [List.length_append]; omega)
            obtain ⟨rc, locConf, hfind, hanswer⟩ := ih left pre rest .done clcf.locConf (by omega) hleftLevel
              (fun lx hlx => hsound lx (hmemLeft lx hlx))
            refine ⟨rc, locConf, ?_, answer_redirect hlevel hslashed hred.2 clcf hfirst hanswer⟩
            rw [find_redirect _ _ _ _ _ _ _ _ _ _ _ hlen clcf hfirst hred.2 hlonger hred.1, hfind]
          · obtain ⟨rc, locConf, hfind, hanswer⟩ := ih left pre rest rv own (by omega) hleftLevel
              (fun lx hlx => hsound lx (hmemLeft lx hlx))
            have hno : rest.length + 1 = name.length → lq.redirects = false := by
              intro hnext
              by_contra htrue
              exact hred ⟨hnext, by simpa using htrue⟩
            have hno' : lq.name = slashed (pre ++ rest) → lq.redirects = false := by
              intro heq
              apply hno
              have hlens := congrArg List.length heq
              simp only [slashed, List.length_append, List.length_singleton] at hlens
              omega
            refine ⟨rc, locConf, ?_, answer_left hlevel hless hno' hanswer⟩
            rw [find_shorter _ _ _ _ _ _ _ _ _ _ _ hlen hlonger hlt hno, hfind]
        · have hall : lq.name = pre ++ rest := by rw [← hname, heq]
          rw [find_equal _ _ _ _ _ _ _ _ _ _ _ hlen heq.symm]
          obtain ⟨clcf, hfirst⟩ := (hsound lq hmemLq).held
          cases hexact : lq.exact with
          | some exact => exact ⟨.ok, exact.locConf, rfl, Answer.exact lq exact hmemLq hall hexact⟩
          | none =>
              rw [Lq.first, hexact, Option.none_or] at hfirst
              refine ⟨.again, clcf.locConf, ?_, Answer.equal lq clcf hmemLq hall hexact hfirst⟩
              rw [hfirst]
              rfl
        · obtain ⟨rc, locConf, hfind, hanswer⟩ := ih tail pre rest rv own (by omega) htailLevel
            (fun lx hlx => hsound lx (hmemTail lx hlx))
          have hbelow : Below UInt8.toNat lq.name (pre ++ rest) := by
            rw [← hname]
            exact (below_append_iff pre).mpr habove
          have hnot : ¬lq.name <+: slashed (pre ++ rest) :=
            (hbelow.mono _ _ List.prefix_rfl (prefix_slashed (pre ++ rest))).not_start
          refine ⟨rc, locConf, ?_, answer_right hlevel (Or.inl hbelow) (hblock.idle_of_apart hnot) hanswer⟩
          rw [find_above _ _ _ _ _ _ _ _ _ _ _ hlen habove, hfind]
        · have huri : lq.name <+: pre ++ rest := hname ▸ (List.prefix_append_right_inj pre).mpr hshorter
          have hne : lq.name ≠ pre ++ rest := by
            intro heq
            have hlens := congrArg List.length heq
            rw [List.length_append] at hlens
            omega
          cases hinc : lq.inclusive with
          | some clcf =>
              obtain ⟨rc, locConf, hfind, hanswer⟩ := ih list.level lq.name (rest.drop name.length) .again
                clcf.locConf (by omega) hblock.level (fun lx hlx => hsound lx (hmemList lx hlx))
              have hwhole : lq.name ++ rest.drop name.length = pre ++ rest := by
                obtain ⟨more, rfl⟩ := hshorter
                rw [List.drop_left, ← hname, List.append_assoc]
              rw [hwhole, entriesOf_level] at hanswer
              refine ⟨rc, locConf, ?_, answer_under hlevel clcf hinc huri hne hanswer⟩
              rw [find_under _ _ _ _ _ _ _ _ _ _ _ hlen clcf rfl hshorter hlt, hfind]
          | none =>
              obtain ⟨rc, locConf, hfind, hanswer⟩ := ih tail pre rest rv own (by omega) htailLevel
                (fun lx hlx => hsound lx (hmemTail lx hlx))
              have hless : NameLess lq.name (pre ++ rest) := Less.of_begins huri hne
              refine ⟨rc, locConf, ?_, answer_right hlevel hless (hblock.idle_of_exact hinc hless) hanswer⟩
              rw [find_exact_only _ _ _ _ _ _ _ _ _ _ _ hlen rfl hshorter hlt, hfind]

end Nginx.Location
