import Nginx.Http.Location.Find

namespace Nginx.Location

open FirstDifference

variable {α : Type}

-- Every name goes on for at most 255 bytes from the start or from the name of a prefix location that begins it.
def ShortNames (clcfs : List (Clcf α)) : Prop :=
  ∀ clcf ∈ clcfs, clcf.name.length ≤ 255 ∨
    ∃ base ∈ clcfs, base.exactMatch = false ∧ base.name <+: clcf.name ∧ base.name ≠ clcf.name ∧
      clcf.name.length ≤ base.name.length + 255

-- A location whose name goes on from the URI with a byte before the slash
def Intervenes (clcfs : List (Clcf α)) (uri : Bytes) : Prop :=
  ∃ clcf ∈ clcfs, ∃ c : UInt8, c.toNat < slash.toNat ∧ uri ++ [c] <+: clcf.name

-- The location a URI belongs to, where own is what the request has before. The redirect may be missed where a location
-- intervenes; it goes to the '=' location where both kinds have its name.
inductive Chosen (clcfs : List (Clcf α)) (uri : Bytes) (own : α) : Rc → α → Prop
  | exact (clcf : Clcf α) : clcf ∈ clcfs → clcf.exactMatch = true → clcf.name = uri →
      Chosen clcfs uri own .ok clcf.locConf
  | equal (clcf : Clcf α) : (∀ other ∈ clcfs, other.exactMatch = true → other.name ≠ uri) → clcf ∈ clcfs →
      clcf.exactMatch = false → clcf.name = uri → Chosen clcfs uri own .again clcf.locConf
  | redirect (clcf auto : Clcf α) : (∀ other ∈ clcfs, other.name ≠ uri) → auto ∈ clcfs →
      auto.autoRedirect = true → auto.name = slashed uri → clcf ∈ clcfs → clcf.name = slashed uri →
      (clcf.exactMatch = false → ∀ other ∈ clcfs, other.name = slashed uri → other.exactMatch = false) →
      Chosen clcfs uri own .done clcf.locConf
  | longest (clcf : Clcf α) : (∀ other ∈ clcfs, other.name ≠ uri) →
      (∀ other ∈ clcfs, other.autoRedirect = true → other.name ≠ slashed uri) ∨ Intervenes clcfs uri →
      clcf ∈ clcfs → clcf.exactMatch = false → clcf.name <+: uri →
      (∀ other ∈ clcfs, other.exactMatch = false → other.name <+: uri →
        other.name.length ≤ clcf.name.length) →
      Chosen clcfs uri own .again clcf.locConf
  | declined : (∀ other ∈ clcfs, other.name ≠ uri) →
      (∀ other ∈ clcfs, other.autoRedirect = true → other.name ≠ slashed uri) ∨ Intervenes clcfs uri →
      (∀ other ∈ clcfs, other.exactMatch = false → ¬other.name <+: uri) → Chosen clcfs uri own .declined own

-- A name between the URI and the URI followed by a slash goes on with a byte before the slash.
theorem between_byte (uri name : Bytes) (hpre : uri <+: name) (hne : uri ≠ name)
    (hless : NameLess name (slashed uri)) : ∃ c : UInt8, c.toNat < slash.toNat ∧ uri ++ [c] <+: name := by
  obtain ⟨rest, rfl⟩ := hpre
  cases rest with
  | nil => exact absurd (List.append_nil uri).symm hne
  | cons c rest =>
      refine ⟨c, ?_, ⟨rest, by simp⟩⟩
      rcases hless with hbelow | ⟨-, hlt⟩
      · have hbyte := (below_append_iff uri).mp hbelow
        cases hbyte with
        | head _ _ _ _ hlt => exact hlt
        | tail _ _ _ h => cases h
      · simp [slashed] at hlt

theorem Joined.sound {clcfs : List (Clcf α)} {lq : Lq α} (h : Joined clcfs lq) (hplain : Plain clcfs) :
    Sound lq := by
  constructor
  · obtain ⟨clcf, hexact | hinclusive⟩ := h.held
    · exact ⟨clcf, by rw [Lq.first, hexact, Option.some_or]⟩
    · cases hexact : lq.exact with
      | some exact => exact ⟨exact, by rw [Lq.first, hexact, Option.some_or]⟩
      | none => exact ⟨clcf, by rw [Lq.first, hexact, Option.none_or, hinclusive]⟩
  · intro hred
    rw [Lq.redirects, Bool.or_eq_true, Option.any_eq_true, Option.any_eq_true] at hred
    rcases hred with ⟨clcf, hclcf, hauto⟩ | ⟨clcf, hclcf, hauto⟩
    · obtain ⟨hmem, hname⟩ := h.holds clcf (Or.inl hclcf)
      exact hname ▸ hplain.slash clcf hmem hauto
    · obtain ⟨hmem, hname⟩ := h.holds clcf (Or.inr hclcf)
      exact hname ▸ hplain.slash clcf hmem hauto

section

variable {clcfs : List (Clcf α)} {locations : List (Lq α)} (hjoined : ∀ lq ∈ locations, Joined clcfs lq)
  (hkept : ∀ clcf ∈ clcfs, ∃ lq ∈ locations, lq.Holds clcf)

include hjoined hkept

theorem held_of_inclusive (clcf : Clcf α) (hmem : clcf ∈ clcfs) (hmatch : clcf.exactMatch = false) :
    ∃ lq ∈ locations, lq.inclusive = some clcf ∧ clcf.name = lq.name := by
  obtain ⟨lq, hlq, hexact | hinclusive⟩ := hkept clcf hmem
  · rw [((hjoined lq hlq).exact clcf hexact).2.1] at hmatch
    exact absurd hmatch (by simp)
  · exact ⟨lq, hlq, hinclusive, ((hjoined lq hlq).inclusive clcf hinclusive).2.2⟩

theorem held_of_exact (clcf : Clcf α) (hmem : clcf ∈ clcfs) (hmatch : clcf.exactMatch = true) :
    ∃ lq ∈ locations, lq.exact = some clcf ∧ clcf.name = lq.name := by
  obtain ⟨lq, hlq, hexact | hinclusive⟩ := hkept clcf hmem
  · exact ⟨lq, hlq, hexact, ((hjoined lq hlq).exact clcf hexact).2.2⟩
  · rw [((hjoined lq hlq).inclusive clcf hinclusive).2.1] at hmatch
    exact absurd hmatch (by simp)

theorem short_of_names (hshort : ShortNames clcfs) : Short [] locations := by
  intro lx hlx
  obtain ⟨clcf, hholds⟩ := (hjoined lx hlx).held
  obtain ⟨hmem, hname⟩ := (hjoined lx hlx).holds clcf hholds
  rcases hshort clcf hmem with hle | ⟨base, hbase, hmatch, hpre, hne, hle⟩
  · exact Or.inl (by rw [← hname]; simpa using hle)
  · obtain ⟨lq, hlq, hinc, hbaseName⟩ := held_of_inclusive hjoined hkept base hbase hmatch
    rw [hname, hbaseName] at hpre hne hle
    exact Or.inr ⟨lq, hlq, by simp [hinc], hpre, hne, hle⟩

theorem noName_of_noMatch {uri : Bytes} (h : NoMatch locations uri) : ∀ clcf ∈ clcfs, clcf.name ≠ uri := by
  intro clcf hmem hname
  obtain ⟨lq, hlq, hholds⟩ := hkept clcf hmem
  exact h lq hlq (((hjoined lq hlq).holds clcf hholds).2.symm.trans hname)

theorem noRedirect_of_missed {uri : Bytes} (h : NoRedirect locations uri ∨ Between locations uri) :
    (∀ clcf ∈ clcfs, clcf.autoRedirect = true → clcf.name ≠ slashed uri) ∨ Intervenes clcfs uri := by
  rcases h with hno | ⟨lq, hlq, hpre, hne, hless⟩
  · refine Or.inl ?_
    intro clcf hmem hauto hname
    obtain ⟨lq, hlq, hholds⟩ := hkept clcf hmem
    have hlqName := ((hjoined lq hlq).holds clcf hholds).2
    have hfalse := hno lq hlq (hlqName.symm.trans hname)
    rcases hholds with hexact | hinclusive
    · simp [Lq.redirects, hexact, hauto] at hfalse
    · simp [Lq.redirects, hinclusive, hauto] at hfalse
  · obtain ⟨clcf, hholds⟩ := (hjoined lq hlq).held
    obtain ⟨hmem, hname⟩ := (hjoined lq hlq).holds clcf hholds
    obtain ⟨c, hc, hbegin⟩ := between_byte uri lq.name hpre hne hless
    exact Or.inr ⟨clcf, hmem, c, hc, hname ▸ hbegin⟩

-- The answer told by the elements of the joined queue, told by the locations.
theorem chosen_of_answer
    (hsorted : locations.Pairwise fun one two => NameLess one.name two.name) {uri : Bytes} {own locConf : α}
    {rc : Rc} (h : Answer locations uri .declined own rc locConf) : Chosen clcfs uri own rc locConf := by
  -- two elements of one name are the same
  have hunique : ∀ lq ∈ locations, ∀ lx ∈ locations, lq.name = lx.name → lq = lx := by
    have hless : ∀ one two : Lq α, NameLess one.name two.name → one.name ≠ two.name := by
      intro one two hless heq
      rw [heq] at hless
      exact Less.irrefl hless
    intro lq hlq lx hlx
    refine @List.Pairwise.forall_of_forall_of_flip _ locations (fun one two => one.name = two.name → one = two)
      (fun _ _ _ => rfl) (hsorted.imp ?_) (hsorted.imp ?_) lq hlq lx hlx
    · exact fun hone heq => absurd heq (hless _ _ hone)
    · exact fun hone heq => absurd heq.symm (hless _ _ hone)
  cases h with
  | exact lq clcf hlq hname hexact =>
      obtain ⟨hmem, hmatch, hclcf⟩ := (hjoined lq hlq).exact clcf hexact
      exact Chosen.exact clcf hmem hmatch (hclcf.trans hname)
  | equal lq clcf hlq hname hnone hinc =>
      obtain ⟨hmem, hmatch, hclcf⟩ := (hjoined lq hlq).inclusive clcf hinc
      refine Chosen.equal clcf ?_ hmem hmatch (hclcf.trans hname)
      intro other hother hexact hotherName
      obtain ⟨lx, hlx, hheld, hlxName⟩ := held_of_exact hjoined hkept other hother hexact
      obtain rfl := hunique lx hlx lq hlq ((hlxName.symm.trans hotherName).trans hname.symm)
      simp [hnone] at hheld
  | redirect lq clcf hno hlq hname hred hfirst =>
      have hholds : lq.Holds clcf := by
        rw [Lq.first, Option.or_eq_some_iff] at hfirst
        rcases hfirst with hexact | ⟨-, hinclusive⟩
        · exact Or.inl hexact
        · exact Or.inr hinclusive
      obtain ⟨hmem, hclcf⟩ := (hjoined lq hlq).holds clcf hholds
      rw [Lq.redirects, Bool.or_eq_true, Option.any_eq_true, Option.any_eq_true] at hred
      obtain ⟨auto, hautoHolds, hauto⟩ : ∃ auto, lq.Holds auto ∧ auto.autoRedirect = true := by
        rcases hred with ⟨auto, hauto, htrue⟩ | ⟨auto, hauto, htrue⟩
        · exact ⟨auto, Or.inl hauto, htrue⟩
        · exact ⟨auto, Or.inr hauto, htrue⟩
      obtain ⟨hautoMem, hautoName⟩ := (hjoined lq hlq).holds auto hautoHolds
      refine Chosen.redirect clcf auto (noName_of_noMatch hjoined hkept hno) hautoMem hauto
        (hautoName.trans hname) hmem (hclcf.trans hname) ?_
      intro hmatch other hother hotherName
      by_contra htrue
      rw [Bool.not_eq_false] at htrue
      obtain ⟨lx, hlx, hheld, hlxName⟩ := held_of_exact hjoined hkept other hother htrue
      obtain rfl := hunique lx hlx lq hlq ((hlxName.symm.trans hotherName).trans hname.symm)
      rw [Lq.first, hheld, Option.some_or] at hfirst
      obtain rfl := Option.some.inj hfirst
      rw [htrue] at hmatch
      exact absurd hmatch (by simp)
  | longest lq clcf hno hmissed hlq hinc hpre hlongest =>
      obtain ⟨hmem, hmatch, hclcf⟩ := (hjoined lq hlq).inclusive clcf hinc
      refine Chosen.longest clcf (noName_of_noMatch hjoined hkept hno) (noRedirect_of_missed hjoined hkept hmissed)
        hmem hmatch (hclcf ▸ hpre) ?_
      intro other hother hotherMatch hotherPre
      obtain ⟨lx, hlx, hheld, hlxName⟩ := held_of_inclusive hjoined hkept other hother hotherMatch
      rw [hlxName, hclcf]
      exact hlongest lx hlx (by simp [hheld]) (hlxName ▸ hotherPre)
  | nothing hno hmissed hnone =>
      refine Chosen.declined (noName_of_noMatch hjoined hkept hno) (noRedirect_of_missed hjoined hkept hmissed) ?_
      intro other hother hotherMatch hotherPre
      obtain ⟨lx, hlx, hheld, hlxName⟩ := held_of_inclusive hjoined hkept other hother hotherMatch
      exact hnone lx hlx (by simp [hheld]) (hlxName ▸ hotherPre)

end

theorem findStaticLocation_chosen (clcfs : List (Clcf α)) (hplain : Plain clcfs) (hshort : ShortNames clcfs)
    (tree : Node α) (htree : initStaticLocations clcfs = some tree) (uri : Bytes) (own : α) :
    ∃ rc locConf, findStaticLocation tree uri .declined own = some (rc, locConf) ∧
      Chosen clcfs uri own rc locConf := by
  cases clcfs with
  | nil =>
      obtain rfl : Node.null = tree := Option.some.inj htree
      exact ⟨.declined, own, rfl, Chosen.declined (by simp) (Or.inl (by simp)) (by simp)⟩
  | cons first rest =>
      simp only [initStaticLocations] at htree
      split at htree
      · cases htree
      · rename_i locations hlocations
        obtain rfl := Option.some.inj htree
        obtain ⟨hjoined, hsorted, hkept⟩ := joinExactLocations_joined (first :: rest) hplain locations hlocations
        have hlevel := createLocationsList_level locations.length locations [] (Nat.le_refl _)
          (fun lq hlq => (hjoined lq hlq).noNul hplain) hsorted (fun lq _ => List.nil_prefix)
          (short_of_names hjoined hkept hshort)
        have hentries : entriesOf (createLocationsList locations.length locations).level = locations := by
          rw [entriesOf_level, createLocationsList_entries _ _ (Nat.le_refl _)]
        have hfind := find_answer locations.length _ [] uri .declined own (by rw [hentries]) hlevel
          (by
            rw [hentries]
            exact fun lq hlq => (hjoined lq hlq).sound hplain)
        rw [hentries, List.nil_append, List.length_nil] at hfind
        obtain ⟨rc, locConf, hfound, hanswer⟩ := hfind
        exact ⟨rc, locConf, hfound, chosen_of_answer hjoined hkept hsorted hanswer⟩

-- The answer by the names alone: the whole URI, the redirect, the longest prefix.
def stated (clcfs : List (Clcf α)) (uri : Bytes) (own : α) : Rc × α :=
  match clcfs.find? fun clcf => clcf.exactMatch && clcf.name == uri with
  | some clcf => (.ok, clcf.locConf)
  | none =>
      match clcfs.find? fun clcf => !clcf.exactMatch && clcf.name == uri with
      | some clcf => (.again, clcf.locConf)
      | none =>
          match clcfs.find? fun clcf => clcf.autoRedirect && clcf.name == slashed uri with
          | some clcf => (.done, clcf.locConf)
          | none =>
              match (clcfs.filter fun clcf => !clcf.exactMatch && clcf.name.isPrefixOf uri).argmax
                fun clcf => clcf.name.length with
              | some clcf => (.again, clcf.locConf)
              | none => (.declined, own)

-- Where the tree is built and the search answers something else
def Differs (clcfs : List (Clcf Nat)) (uri : Bytes) : Prop :=
  match initStaticLocations clcfs with
  | none => False
  | some tree => findStaticLocation tree uri .declined 0 ≠ some (stated clcfs uri 0)

instance (clcfs : List (Clcf Nat)) (uri : Bytes) : Decidable (Differs clcfs uri) := by
  unfold Differs
  split <;> infer_instance

def prefixOf (name : String) (locConf : Nat) : Clcf Nat := { name := ngxString name, locConf := locConf }

-- "location = /a/ { }" next to a "location /a/ { }" that passes its requests on
def twoSlashed : List (Clcf Nat) :=
  [{ name := ngxString "/a/", exactMatch := true, locConf := 1 },
    { name := ngxString "/a/", autoRedirect := true, locConf := 2 }, prefixOf "/" 3]

-- "/A" and "/a-b" stand before "/a/", so that "/a-b" is the root.
def hyphened : List (Clcf Nat) :=
  [prefixOf "/A" 1, prefixOf "/a-b" 2, { name := ngxString "/a/", autoRedirect := true, locConf := 3 }]

def longName : List (Clcf Nat) := [{ name := slash :: List.replicate 256 97, locConf := 1 }]

def nulName : List (Clcf Nat) :=
  [{ name := ngxString "/a", exactMatch := true, locConf := 1 }, { name := [47, 97, 0, 98], locConf := 2 }]

-- The redirect is given with the '=' location of its name. A redirect is missed behind a name that goes on from the URI,
-- 257 bytes are stored as one, and a NUL ends a name.
theorem stated_differs :
    Differs twoSlashed (ngxString "/a") ∧ Differs hyphened (ngxString "/a") ∧
      Differs longName (ngxString "/") ∧ Differs nulName (ngxString "/ac") := by
  refine ⟨?_, ?_, ?_, ?_⟩ <;> decide +kernel

theorem findStaticLocation_chosen_slashed :
    ∃ tree, initStaticLocations twoSlashed = some tree ∧
      findStaticLocation tree (ngxString "/a") .declined 0 = some (.done, 1) ∧
      Chosen twoSlashed (ngxString "/a") 0 .done 1 := by
  obtain ⟨tree, htree⟩ := Option.isSome_iff_exists.mp
    (show (initStaticLocations twoSlashed).isSome = true by decide)
  have hrun : (initStaticLocations twoSlashed).bind
      (fun tree => findStaticLocation tree (ngxString "/a") .declined 0) = some (.done, 1) := by decide
  rw [htree, Option.bind_some] at hrun
  have hplain : Plain twoSlashed := by
    refine ⟨?_, ?_, ?_⟩
    · unfold Clcf.IsStatic
      decide
    · decide
    · decide
  have hshort : ShortNames twoSlashed := by
    intro clcf hclcf
    refine Or.inl ?_
    revert clcf
    decide
  obtain ⟨rc, locConf, hfind, hchosen⟩ := findStaticLocation_chosen twoSlashed hplain hshort tree htree
    (ngxString "/a") 0
  rw [hrun] at hfind
  obtain ⟨rfl, rfl⟩ := Prod.mk.inj (Option.some.inj hfind)
  exact ⟨tree, htree, hrun, hchosen⟩

end Nginx.Location
