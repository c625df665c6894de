import Nginx.Library.FirstDifference
import Nginx.Http.Location

namespace Nginx.Location

open FirstDifference

-- The order of the names, by their bytes as unsigned numbers
abbrev NameLess (s t : Bytes) : Prop := Less UInt8.toNat s t

theorem toNat_injective : Function.Injective UInt8.toNat := fun _ _ h => UInt8.toNat_inj.mp h

theorem strcmp_self (s : Bytes) : strcmp s s = 0 := by
  induction s with
  | nil => rfl
  | cons c s ih =>
      rw [strcmp]
      by_cases hc : c = 0
      · simp [hc]
      · simp [hc, ih]

theorem strcmp_below (s t : Bytes) (h : Below UInt8.toNat s t) (hs : 0 ∉ s) :
    strcmp s t < 0 ∧ 0 < strcmp t s := by
  induction h with
  | head x y as bs hxy =>
      have hne : x ≠ y := by
        rintro rfl
        exact lt_irrefl _ hxy
      rw [strcmp, strcmp, if_neg (fun h => hne h.1), if_neg (fun h => hne h.1.symm)]
      constructor <;> omega
  | tail x as bs h ih =>
      have hx : x ≠ 0 := fun h => hs (h ▸ List.mem_cons_self)
      rw [strcmp, strcmp, if_pos ⟨rfl, hx⟩, if_pos ⟨rfl, hx⟩]
      exact ih (fun hmem => hs (List.mem_cons_of_mem _ hmem))

theorem strcmp_begins (s t : Bytes) (hpre : s <+: t) (hlt : s.length < t.length) (ht : 0 ∉ t) :
    strcmp s t < 0 ∧ 0 < strcmp t s := by
  induction s generalizing t with
  | nil =>
      cases t with
      | nil => simp at hlt
      | cons c t =>
          have hc : c.toNat ≠ 0 := fun h => ht ((UInt8.toNat_inj.mp h : c = 0) ▸ List.mem_cons_self)
          simp only [strcmp, List.headD_cons]
          constructor <;> omega
  | cons c s ih =>
      cases t with
      | nil => simp at hlt
      | cons d t =>
          obtain ⟨rfl, htail⟩ := List.cons_prefix_cons.mp hpre
          have hc : c ≠ 0 := fun h => ht (h ▸ List.mem_cons_self)
          rw [strcmp, strcmp, if_pos ⟨rfl, hc⟩, if_pos ⟨rfl, hc⟩]
          exact ih t htail (by simpa using hlt) (fun hmem => ht (List.mem_cons_of_mem _ hmem))

-- On names without a NUL strcmp is the comparison of the whole strings.
theorem strcmp_less (s t : Bytes) (h : NameLess s t) (hs : 0 ∉ s) (ht : 0 ∉ t) :
    strcmp s t < 0 ∧ 0 < strcmp t s := by
  rcases h with h | ⟨hpre, hlt⟩
  · exact strcmp_below s t h hs
  · exact strcmp_begins s t hpre hlt ht

theorem strcmp_neg_iff (s t : Bytes) (hs : 0 ∉ s) (ht : 0 ∉ t) : strcmp s t < 0 ↔ NameLess s t := by
  constructor
  · intro hneg
    rcases less_or toNat_injective s t with h | rfl | h
    · exact h
    · rw [strcmp_self] at hneg
      omega
    · have hpos := (strcmp_less t s h ht hs).2
      omega
  · exact fun h => (strcmp_less s t h hs ht).1

theorem strcmp_eq_zero_iff (s t : Bytes) (hs : 0 ∉ s) (ht : 0 ∉ t) : strcmp s t = 0 ↔ s = t := by
  constructor
  · intro hzero
    rcases less_or toNat_injective s t with h | h | h
    · have hneg := (strcmp_less s t h hs ht).1
      omega
    · exact h
    · have hpos := (strcmp_less t s h ht hs).2
      omega
  · rintro rfl
    exact strcmp_self s

variable {α : Type}

-- A '=' or prefix location
def Clcf.IsStatic (clcf : Clcf α) : Prop :=
  clcf.noname = false ∧ clcf.named = false ∧ clcf.regex = false

-- The order of the sorted queue: by the name, and an exact location before the inclusive one of its name.
def InOrder (first second : Clcf α) : Prop :=
  NameLess first.name second.name ∨
    first.name = second.name ∧ (second.exactMatch = true → first.exactMatch = true)

theorem addLocation_first (clcf : Clcf α) : (addLocation clcf).first = some clcf := by
  unfold addLocation
  split <;> rfl

theorem addLocation_name (clcf : Clcf α) : (addLocation clcf).name = clcf.name := by
  unfold addLocation
  split <;> rfl

theorem addLocation_exact (clcf : Clcf α) (h : clcf.IsStatic) :
    (addLocation clcf).exact = if clcf.exactMatch then some clcf else none := by
  obtain ⟨hnoname, hnamed, hregex⟩ := h
  by_cases hexact : clcf.exactMatch = true <;> simp [addLocation, hnoname, hnamed, hregex, hexact]

theorem addLocation_inclusive (clcf : Clcf α) (h : clcf.IsStatic) :
    (addLocation clcf).inclusive = if clcf.exactMatch then none else some clcf := by
  obtain ⟨hnoname, hnamed, hregex⟩ := h
  by_cases hexact : clcf.exactMatch = true <;> simp [addLocation, hnoname, hnamed, hregex, hexact]

theorem cmpClcf_le_iff (first second : Clcf α) (h1 : first.IsStatic) (h2 : second.IsStatic)
    (hnul1 : 0 ∉ first.name) (hnul2 : 0 ∉ second.name) : cmpClcf first second ≤ 0 ↔ InOrder first second := by
  obtain ⟨hnoname1, hnamed1, hregex1⟩ := h1
  obtain ⟨hnoname2, hnamed2, hregex2⟩ := h2
  have hneg := strcmp_neg_iff first.name second.name hnul1 hnul2
  have hzero := strcmp_eq_zero_iff first.name second.name hnul1 hnul2
  have hcmp : cmpClcf first second =
      if strcmp first.name second.name = 0 ∧ !first.exactMatch ∧ second.exactMatch then 1
      else strcmp first.name second.name := by
    simp [cmpClcf, hnoname1, hnamed1, hregex1, hnoname2, hnamed2, hregex2]
  rw [hcmp, InOrder, ← hneg, ← hzero]
  by_cases hswap : strcmp first.name second.name = 0 ∧ !first.exactMatch ∧ second.exactMatch
  · obtain ⟨hz, hfirst, hsecond⟩ := hswap
    simp only [Bool.not_eq_true'] at hfirst
    simp [hz, hfirst, hsecond]
  · rw [if_neg hswap]
    constructor
    · intro hle
      rcases Int.lt_or_eq_of_le hle with hlt | heq
      · exact Or.inl hlt
      · refine Or.inr ⟨heq, ?_⟩
        intro hsecond
        by_contra hfirst
        exact hswap ⟨heq, by simpa using hfirst, hsecond⟩
    · rintro (hlt | ⟨heq, -⟩)
      · exact Int.le_of_lt hlt
      · exact Int.le_of_eq heq

theorem InOrder.total (first second : Clcf α) : InOrder first second ∨ InOrder second first := by
  rcases less_or toNat_injective first.name second.name with h | h | h
  · exact Or.inl (Or.inl h)
  · by_cases hexact : first.exactMatch = true
    · exact Or.inl (Or.inr ⟨h, fun _ => hexact⟩)
    · exact Or.inr (Or.inr ⟨h.symm, fun hfirst => absurd hfirst hexact⟩)
  · exact Or.inr (Or.inl h)

theorem InOrder.trans (first second third : Clcf α) (h : InOrder first second) (h' : InOrder second third) :
    InOrder first third := by
  rcases h with h | ⟨hname, hexact⟩
  · rcases h' with h' | ⟨hname', -⟩
    · exact Or.inl (h.trans toNat_injective h')
    · exact Or.inl (hname' ▸ h)
  · rcases h' with h' | ⟨hname', hexact'⟩
    · exact Or.inl (hname ▸ h')
    · exact Or.inr ⟨hname.trans hname', fun hthird => hexact (hexact' hthird)⟩

def slash : UInt8 := 47

-- '=' and prefix locations whose names strcmp tells apart; auto_redirect is set for a name that ends with '/' only.
structure Plain (clcfs : List (Clcf α)) : Prop where
  isStatic : ∀ clcf ∈ clcfs, clcf.IsStatic
  noNul : ∀ clcf ∈ clcfs, 0 ∉ clcf.name
  slash : ∀ clcf ∈ clcfs, clcf.autoRedirect = true → [slash] <:+ clcf.name

-- The sorted queue holds the locations in their order.
theorem sort_addLocation (clcfs : List (Clcf α)) (h : Plain clcfs) :
    ∃ sorted : List (Clcf α), Queue.sort cmpLocations (clcfs.map addLocation) = sorted.map addLocation ∧
      sorted.Perm clcfs ∧ sorted.Pairwise InOrder := by
  have hcmp : ∀ first ∈ clcfs, ∀ second ∈ clcfs,
      (cmpLocations (addLocation first) (addLocation second) ≤ 0 ↔ InOrder first second) := by
    intro first hfirst second hsecond
    simp only [cmpLocations, addLocation_first]
    exact cmpClcf_le_iff first second (h.isStatic first hfirst) (h.isStatic second hsecond)
      (h.noNul first hfirst) (h.noNul second hsecond)
  have hperm := Queue.sort_perm (fun a b => cmpLocations (addLocation a) (addLocation b)) clcfs
  have hsorted := @Queue.sort_pairwise _ (fun a b => cmpLocations (addLocation a) (addLocation b))
    (fun clcf => clcf ∈ clcfs)
    (by
      intro first second hfirst hsecond
      rw [hcmp first hfirst second hsecond, hcmp second hsecond first hfirst]
      exact InOrder.total first second)
    (by
      intro first second third hfirst hsecond hthird
      rw [hcmp first hfirst second hsecond, hcmp second hsecond third hthird, hcmp first hfirst third hthird]
      exact InOrder.trans first second third)
    clcfs (fun clcf hclcf => hclcf)
  refine ⟨_, Queue.sort_map addLocation cmpLocations clcfs, hperm, ?_⟩
  refine hsorted.imp_of_mem ?_
  intro first second hfirst hsecond hle
  exact (hcmp first (hperm.mem_iff.mp hfirst) second (hperm.mem_iff.mp hsecond)).mp hle

def Lq.Holds (lq : Lq α) (clcf : Clcf α) : Prop := lq.exact = some clcf ∨ lq.inclusive = some clcf

-- An element of the joined queue: it holds one or both of the locations of its name.
structure Joined (clcfs : List (Clcf α)) (lq : Lq α) : Prop where
  exact : ∀ clcf, lq.exact = some clcf → clcf ∈ clcfs ∧ clcf.exactMatch = true ∧ clcf.name = lq.name
  inclusive : ∀ clcf, lq.inclusive = some clcf → clcf ∈ clcfs ∧ clcf.exactMatch = false ∧ clcf.name = lq.name
  held : ∃ clcf, lq.Holds clcf

theorem Joined.holds {clcfs : List (Clcf α)} {lq : Lq α} (h : Joined clcfs lq) (clcf : Clcf α)
    (hholds : lq.Holds clcf) : clcf ∈ clcfs ∧ clcf.name = lq.name := by
  rcases hholds with hexact | hinclusive
  · exact ⟨(h.exact clcf hexact).1, (h.exact clcf hexact).2.2⟩
  · exact ⟨(h.inclusive clcf hinclusive).1, (h.inclusive clcf hinclusive).2.2⟩

theorem Joined.noNul {clcfs : List (Clcf α)} {lq : Lq α} (h : Joined clcfs lq) (hplain : Plain clcfs) :
    0 ∉ lq.name := by
  obtain ⟨clcf, hholds⟩ := h.held
  obtain ⟨hmem, hname⟩ := h.holds clcf hholds
  exact hname ▸ hplain.noNul clcf hmem

theorem joined_addLocation (clcfs : List (Clcf α)) (h : Plain clcfs) (clcf : Clcf α) (hmem : clcf ∈ clcfs) :
    Joined clcfs (addLocation clcf) ∧ (addLocation clcf).Holds clcf := by
  have hexact := addLocation_exact clcf (h.isStatic clcf hmem)
  have hinclusive := addLocation_inclusive clcf (h.isStatic clcf hmem)
  have hname := addLocation_name clcf
  by_cases hmatch : clcf.exactMatch = true
  · rw [if_pos hmatch] at hexact hinclusive
    refine ⟨⟨?_, ?_, clcf, Or.inl hexact⟩, Or.inl hexact⟩
    · intro other hother
      obtain rfl : clcf = other := Option.some.inj (hexact.symm.trans hother)
      exact ⟨hmem, hmatch, hname.symm⟩
    · intro other hother
      simp [hinclusive] at hother
  · rw [if_neg hmatch] at hexact hinclusive
    refine ⟨⟨?_, ?_, clcf, Or.inr hinclusive⟩, Or.inr hinclusive⟩
    · intro other hother
      simp [hexact] at hother
    · intro other hother
      obtain rfl : clcf = other := Option.some.inj (hinclusive.symm.trans hother)
      exact ⟨hmem, by simpa using hmatch, hname.symm⟩

-- The place of an element before a location that the sorted queue has after it
def Lq.Before (lq : Lq α) (clcf : Clcf α) : Prop :=
  NameLess lq.name clcf.name ∨ lq.name = clcf.name ∧ (clcf.exactMatch = true → lq.exact ≠ none)

theorem addLocation_before (first second : Clcf α) (hstatic : first.IsStatic) (h : InOrder first second) :
    (addLocation first).Before second := by
  rw [Lq.Before, addLocation_name, addLocation_exact first hstatic]
  rcases h with h | ⟨hname, hexact⟩
  · exact Or.inl h
  · refine Or.inr ⟨hname, ?_⟩
    intro hsecond
    simp [hexact hsecond]

-- Joining keeps every location and leaves one element for each name.
theorem joinFrom_joined (clcfs : List (Clcf α)) (hplain : Plain clcfs) (rest : List (Clcf α)) (lq : Lq α)
    (locations : List (Lq α)) (h : joinFrom lq (rest.map addLocation) = some locations) (hlq : Joined clcfs lq)
    (hmem : ∀ clcf ∈ rest, clcf ∈ clcfs) (hsorted : rest.Pairwise InOrder)
    (hbefore : ∀ clcf ∈ rest, lq.Before clcf) :
    (∀ other ∈ locations, Joined clcfs other) ∧
      (locations.Pairwise fun one two => NameLess one.name two.name) ∧
      (∀ other ∈ locations, lq.name = other.name ∨ NameLess lq.name other.name) ∧
      ∀ clcf, lq.Holds clcf ∨ clcf ∈ rest → ∃ other ∈ locations, other.Holds clcf := by
  induction rest generalizing lq locations with
  | nil =>
      obtain rfl : [lq] = locations := Option.some.inj h
      refine ⟨by simpa using hlq, List.pairwise_singleton _ _, by simp, ?_⟩
      rintro clcf (hholds | hnil)
      · exact ⟨lq, List.mem_singleton_self lq, hholds⟩
      · cases hnil
  | cons second rest ih =>
      have hsecond : second ∈ clcfs := hmem second List.mem_cons_self
      have hstatic := hplain.isStatic second hsecond
      have hmem' : ∀ clcf ∈ rest, clcf ∈ clcfs := fun clcf hclcf => hmem clcf (List.mem_cons_of_mem _ hclcf)
      obtain ⟨hnext, hsorted'⟩ := List.pairwise_cons.mp hsorted
      obtain ⟨hjoined2, hholds2⟩ := joined_addLocation clcfs hplain second hsecond
      have hzero := strcmp_eq_zero_iff lq.name second.name (hlq.noNul hplain) (hplain.noNul second hsecond)
      rw [List.map_cons, joinFrom, addLocation_name, addLocation_exact second hstatic,
        addLocation_inclusive second hstatic] at h
      by_cases hname : lq.name = second.name
      · rw [if_pos (hzero.mpr hname)] at h
        -- a '=' location of this name would stand before lq
        have hinc : second.exactMatch = false := by
          by_contra hmatch
          rw [Bool.not_eq_false] at hmatch
          rcases hbefore second List.mem_cons_self with hless | ⟨-, hexact⟩
          · rw [hname] at hless
            exact Less.irrefl hless
          · simp [hmatch, Option.isSome_iff_ne_none.mpr (hexact hmatch)] at h
        have hnone : lq.inclusive = none := by
          by_contra hsome
          simp [hinc, Option.isSome_iff_ne_none.mpr hsome] at h
        simp only [hinc, hnone, Bool.false_eq_true, if_false, Option.isSome_none, Option.isSome_some,
          Bool.and_false, Bool.false_and, Bool.or_self] at h
        have hlq' : Joined clcfs { lq with inclusive := some second } := by
          refine ⟨hlq.exact, ?_, second, Or.inr rfl⟩
          intro clcf hclcf
          obtain rfl : second = clcf := Option.some.inj hclcf
          exact ⟨hsecond, hinc, hname.symm⟩
        obtain ⟨hall, hpair, hafter, hkept⟩ := ih { lq with inclusive := some second } locations h hlq' hmem'
          hsorted' (fun clcf hclcf => hbefore clcf (List.mem_cons_of_mem _ hclcf))
        refine ⟨hall, hpair, hafter, ?_⟩
        rintro clcf (hholds | hclcf)
        · rcases hholds with hexact | hinclusive
          · exact hkept clcf (Or.inl (Or.inl hexact))
          · simp [hnone] at hinclusive
        · rcases List.mem_cons.mp hclcf with rfl | hclcf
          · exact hkept clcf (Or.inl (Or.inr rfl))
          · exact hkept clcf (Or.inr hclcf)
      · rw [if_neg (fun h0 => hname (hzero.mp h0))] at h
        obtain ⟨others, hothers, rfl⟩ := Option.map_eq_some_iff.mp h
        have hless : NameLess lq.name second.name := by
          rcases hbefore second List.mem_cons_self with hless | ⟨heq, -⟩
          · exact hless
          · exact absurd heq hname
        obtain ⟨hall, hpair, hafter, hkept⟩ := ih (addLocation second) others hothers hjoined2 hmem' hsorted'
          (fun clcf hclcf => addLocation_before second clcf hstatic (hnext clcf hclcf))
        have hbehind : ∀ other ∈ others, NameLess lq.name other.name := by
          intro other hother
          rw [addLocation_name] at hafter
          rcases hafter other hother with heq | hless'
          · exact heq ▸ hless
          · exact hless.trans toNat_injective hless'
        refine ⟨?_, List.pairwise_cons.mpr ⟨hbehind, hpair⟩, ?_, ?_⟩
        · intro other hother
          rcases List.mem_cons.mp hother with rfl | hother
          · exact hlq
          · exact hall other hother
        · intro other hother
          rcases List.mem_cons.mp hother with rfl | hother
          · exact Or.inl rfl
          · exact Or.inr (hbehind other hother)
        · rintro clcf (hholds | hclcf)
          · exact ⟨lq, List.mem_cons_self, hholds⟩
          · have hcase : (addLocation second).Holds clcf ∨ clcf ∈ rest := by
              rcases List.mem_cons.mp hclcf with rfl | hclcf
              · exact Or.inl hholds2
              · exact Or.inr hclcf
            obtain ⟨other, hother, hheld⟩ := hkept clcf hcase
            exact ⟨other, List.mem_cons_of_mem _ hother, hheld⟩

theorem joinExactLocations_joined (clcfs : List (Clcf α)) (hplain : Plain clcfs) (locations : List (Lq α))
    (h : joinExactLocations (Queue.sort cmpLocations (clcfs.map addLocation)) = some locations) :
    (∀ lq ∈ locations, Joined clcfs lq) ∧
      (locations.Pairwise fun one two => NameLess one.name two.name) ∧
      ∀ clcf ∈ clcfs, ∃ lq ∈ locations, lq.Holds clcf := by
  obtain ⟨sorted, hsort, hperm, hsorted⟩ := sort_addLocation clcfs hplain
  rw [hsort] at h
  cases sorted with
  | nil =>
      obtain rfl : [] = locations := Option.some.inj h
      refine ⟨by simp, List.Pairwise.nil, ?_⟩
      intro clcf hclcf
      cases hperm.mem_iff.mpr hclcf
  | cons first rest =>
      have hfirst : first ∈ clcfs := hperm.mem_iff.mp List.mem_cons_self
      obtain ⟨hnext, hrest⟩ := List.pairwise_cons.mp hsorted
      obtain ⟨hjoined, hholds⟩ := joined_addLocation clcfs hplain first hfirst
      obtain ⟨hall, hpair, -, hkept⟩ := joinFrom_joined clcfs hplain rest (addLocation first) locations h hjoined
        (fun clcf hclcf => hperm.mem_iff.mp (List.mem_cons_of_mem _ hclcf)) hrest
        (fun clcf hclcf => addLocation_before first clcf (hplain.isStatic first hfirst) (hnext clcf hclcf))
      refine ⟨hall, hpair, ?_⟩
      intro clcf hclcf
      rcases List.mem_cons.mp (hperm.mem_iff.mpr hclcf) with rfl | hmem
      · exact hkept clcf (Or.inl hholds)
      · exact hkept clcf (Or.inr hmem)

end Nginx.Location
