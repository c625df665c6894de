import Nginx.Http.Location.Levels

namespace Nginx.Location

open FirstDifference

variable {α : Type}

-- auto_redirect of the node of an element
def Lq.redirects (lq : Lq α) : Bool := lq.exact.any Clcf.autoRedirect || lq.inclusive.any Clcf.autoRedirect

-- The URI followed by a slash
def slashed (uri : Bytes) : Bytes := uri ++ [slash]

-- A name that goes on from the URI and stands before the URI followed by a slash
def Between (locations : List (Lq α)) (uri : Bytes) : Prop :=
  ∃ lq ∈ locations, uri <+: lq.name ∧ uri ≠ lq.name ∧ NameLess lq.name (slashed uri)

def NoMatch (locations : List (Lq α)) (uri : Bytes) : Prop := ∀ lq ∈ locations, lq.name ≠ uri

def NoRedirect (locations : List (Lq α)) (uri : Bytes) : Prop :=
  ∀ lq ∈ locations, lq.name = slashed uri → lq.redirects = false

-- What the search in a tree with these elements answers, where rv and own are what it was begun with. A redirect can be
-- missed where a name stands between.
inductive Answer (locations : List (Lq α)) (uri : Bytes) (rv : Rc) (own : α) : Rc → α → Prop
  | exact (lq : Lq α) (clcf : Clcf α) : lq ∈ locations → lq.name = uri → lq.exact = some clcf →
      Answer locations uri rv own .ok clcf.locConf
  | equal (lq : Lq α) (clcf : Clcf α) : lq ∈ locations → lq.name = uri → lq.exact = none →
      lq.inclusive = some clcf → Answer locations uri rv own .again clcf.locConf
  | redirect (lq : Lq α) (clcf : Clcf α) : NoMatch locations uri → lq ∈ locations → lq.name = slashed uri →
      lq.redirects = true → lq.first = some clcf → Answer locations uri rv own .done clcf.locConf
  | longest (lq : Lq α) (clcf : Clcf α) : NoMatch locations uri →
      NoRedirect locations uri ∨ Between locations uri → lq ∈ locations → lq.inclusive = some clcf →
      lq.name <+: uri →
      (∀ lx ∈ locations, lx.inclusive ≠ none → lx.name <+: uri → lx.name.length ≤ lq.name.length) →
      Answer locations uri rv own .again clcf.locConf
  | nothing : NoMatch locations uri → NoRedirect locations uri ∨ Between locations uri →
      (∀ lx ∈ locations, lx.inclusive ≠ none → ¬lx.name <+: uri) → Answer locations uri rv own rv own

-- An element the answer for this URI does not depend on
structure Idle (locations : List (Lq α)) (uri : Bytes) (lq : Lq α) : Prop where
  name : lq.name ≠ uri
  notPrefix : lq.inclusive ≠ none → ¬lq.name <+: uri
  redirects : lq.name = slashed uri → lq.redirects = true → Between locations uri

variable {locations part : List (Lq α)} {uri : Bytes}

theorem prefix_slashed (uri : Bytes) : uri <+: slashed uri := List.prefix_append uri [slash]

theorem slashed_ne (uri : Bytes) : slashed uri ≠ uri := by
  intro h
  have hlen := congrArg List.length h
  simp [slashed] at hlen

theorem less_slashed (uri : Bytes) : NameLess uri (slashed uri) :=
  Less.of_begins (prefix_slashed uri) (slashed_ne uri).symm

section

variable (hpart : ∀ lq ∈ part, lq ∈ locations) (hidle : ∀ lq ∈ locations, lq ∈ part ∨ Idle locations uri lq)

include hidle

theorem noMatch_of_part (h : NoMatch part uri) : NoMatch locations uri := by
  intro lq hlq
  rcases hidle lq hlq with hin | hout
  · exact h lq hin
  · exact hout.name

include hpart

theorem noRedirect_of_part (h : NoRedirect part uri ∨ Between part uri) :
    NoRedirect locations uri ∨ Between locations uri := by
  rcases h with hno | ⟨lq, hlq, hbetween⟩
  · by_cases hmissed : Between locations uri
    · exact Or.inr hmissed
    · refine Or.inl ?_
      intro lq hlq hname
      rcases hidle lq hlq with hin | hout
      · exact hno lq hin hname
      · by_contra htrue
        exact hmissed (hout.redirects hname (by simpa using htrue))
  · exact Or.inr ⟨lq, hpart lq hlq, hbetween⟩

-- The answer of a part holds for the whole where nothing else matters.
theorem Answer.of_part {rv rc : Rc} {own locConf : α} (h : Answer part uri rv own rc locConf) :
    Answer locations uri rv own rc locConf := by
  cases h with
  | exact lq clcf hlq hname hexact => exact Answer.exact lq clcf (hpart lq hlq) hname hexact
  | equal lq clcf hlq hname hexact hinc => exact Answer.equal lq clcf (hpart lq hlq) hname hexact hinc
  | redirect lq clcf hno hlq hname hred hfirst =>
      exact Answer.redirect lq clcf (noMatch_of_part hidle hno) (hpart lq hlq) hname hred hfirst
  | longest lq clcf hno hred hlq hinc hpre hlongest =>
      refine Answer.longest lq clcf (noMatch_of_part hidle hno) (noRedirect_of_part hpart hidle hred)
        (hpart lq hlq) hinc hpre ?_
      intro lx hlx hlxinc hlxpre
      rcases hidle lx hlx with hin | hout
      · exact hlongest lx hin hlxinc hlxpre
      · exact absurd hlxpre (hout.notPrefix hlxinc)
  | nothing hno hred hnone =>
      refine Answer.nothing (noMatch_of_part hidle hno) (noRedirect_of_part hpart hidle hred) ?_
      intro lx hlx hlxinc
      rcases hidle lx hlx with hin | hout
      · exact hnone lx hin hlxinc
      · exact hout.notPrefix hlxinc

end

-- The search below an inclusive element whose name begins the URI
theorem Answer.of_under {lq : Lq α} {clcf : Clcf α} {rv rc : Rc} {own locConf : α}
    (hinc : lq.inclusive = some clcf) (hpre : lq.name <+: uri) (hne : lq.name ≠ uri) (hlq : lq ∈ locations)
    (hpart : ∀ lx ∈ part, lx ∈ locations ∧ lq.name <+: lx.name)
    (hidle : ∀ lx ∈ locations, lx ∈ part ∨ lx = lq ∨ Idle locations uri lx)
    (h : Answer part uri .again clcf.locConf rc locConf) : Answer locations uri rv own rc locConf := by
  have hno : NoMatch part uri → NoMatch locations uri := by
    intro hno lx hlx
    rcases hidle lx hlx with hin | rfl | hout
    · exact hno lx hin
    · exact hne
    · exact hout.name
  have hmissed : NoRedirect part uri ∨ Between part uri → NoRedirect locations uri ∨ Between locations uri := by
    rintro (hred | ⟨lx, hlx, hbetween⟩)
    · by_cases hmissed : Between locations uri
      · exact Or.inr hmissed
      · refine Or.inl ?_
        intro lx hlx hname
        rcases hidle lx hlx with hin | rfl | hout
        · exact hred lx hin hname
        · exact absurd (hname ▸ hpre) (less_slashed uri).not_start
        · by_contra htrue
          exact hmissed (hout.redirects hname (by simpa using htrue))
    · exact Or.inr ⟨lx, (hpart lx hlx).1, hbetween⟩
  cases h with
  | exact lx clcf' hlx hname hexact => exact Answer.exact lx clcf' (hpart lx hlx).1 hname hexact
  | equal lx clcf' hlx hname hexact hinc' => exact Answer.equal lx clcf' (hpart lx hlx).1 hname hexact hinc'
  | redirect lx clcf' hnone hlx hname hred hfirst =>
      exact Answer.redirect lx clcf' (hno hnone) (hpart lx hlx).1 hname hred hfirst
  | longest lx clcf' hnone hred hlx hinc' hpre' hlongest =>
      refine Answer.longest lx clcf' (hno hnone) (hmissed hred) (hpart lx hlx).1 hinc' hpre' ?_
      intro ly hly hlyinc hlypre
      rcases hidle ly hly with hin | rfl | hout
      · exact hlongest ly hin hlyinc hlypre
      · exact (hpart lx hlx).2.length_le
      · exact absurd hlypre (hout.notPrefix hlyinc)
  | nothing hnone hred hnoPrefix =>
      refine Answer.longest lq clcf (hno hnone) (hmissed hred) hlq hinc hpre ?_
      intro ly hly hlyinc hlypre
      rcases hidle ly hly with hin | rfl | hout
      · exact absurd hlypre (hnoPrefix ly hin hlyinc)
      · exact Nat.le_refl _
      · exact absurd hlypre (hout.notPrefix hlyinc)

-- The search goes on after a redirect was found: only a match of the whole URI comes before it.
theorem Answer.of_redirect {lq : Lq α} {clcf : Clcf α} {rv rc : Rc} {own locConf : α}
    (hname : lq.name = slashed uri) (hred : lq.redirects = true) (hfirst : lq.first = some clcf)
    (hlq : lq ∈ locations) (hpart : ∀ lx ∈ part, lx ∈ locations)
    (hnone : ∀ lx ∈ part, lx.name ≠ slashed uri ∧ (lx.inclusive ≠ none → ¬lx.name <+: uri))
    (hno : ∀ lx ∈ locations, lx ∈ part ∨ lx.name ≠ uri)
    (h : Answer part uri .done clcf.locConf rc locConf) : Answer locations uri rv own rc locConf := by
  have hnoMatch : NoMatch part uri → NoMatch locations uri := by
    intro hpartNo lx hlx
    rcases hno lx hlx with hin | hout
    · exact hpartNo lx hin
    · exact hout
  cases h with
  | exact lx clcf' hlx hname' hexact => exact Answer.exact lx clcf' (hpart lx hlx) hname' hexact
  | equal lx clcf' hlx hname' hexact hinc' => exact Answer.equal lx clcf' (hpart lx hlx) hname' hexact hinc'
  | redirect lx clcf' hnoneMatch hlx hname' hred' hfirst' => exact absurd hname' (hnone lx hlx).1
  | longest lx clcf' hnoneMatch hred' hlx hinc' hpre' hlongest =>
      exact absurd hpre' ((hnone lx hlx).2 (by simp [hinc']))
  | nothing hnoneMatch hred' hnoPrefix =>
      exact Answer.redirect lq clcf (hnoMatch hnoneMatch) hlq hname hred hfirst

-- What stands in the queue with an element
structure Block (pre : Bytes) (block : Lq α × Locations α) : Prop where
  begins : pre <+: block.1.name
  short : block.1.name.length ≤ pre.length + 255
  under : ∀ lx ∈ block.2.entries,
    block.1.inclusive ≠ none ∧ block.1.name <+: lx.name ∧ block.1.name ≠ lx.name
  level : Level block.1.name block.2.level

theorem Level.block {pre : Bytes} {level : List (Lq α × Locations α)} (h : Level pre level) :
    ∀ block ∈ level, Block pre block := by
  induction h with
  | nil pre => simp
  | cons pre lq list rest hpre hshort hapart hunder hlist hrest ihlist ihrest =>
      intro block hblock
      rcases List.mem_cons.mp hblock with rfl | hblock
      · exact ⟨hpre, hshort, hunder, hlist⟩
      · exact ihrest block hblock

theorem Level.split {pre : Bytes} {left tail : List (Lq α × Locations α)} {block : Lq α × Locations α}
    (h : Level pre (left ++ block :: tail)) :
    Level pre left ∧ Level pre tail ∧ (∀ other ∈ left, Apart other.1 block.1) ∧
      ∀ other ∈ tail, Apart block.1 other.1 := by
  induction left with
  | nil =>
      cases h with
      | cons _ lq list rest hpre hshort hapart hunder hlist hrest =>
          exact ⟨Level.nil pre, hrest, by simp, hapart⟩
  | cons first left ih =>
      cases h with
      | cons _ lq list rest hpre hshort hapart hunder hlist hrest =>
          obtain ⟨hleft, htail, hbefore, hafter⟩ := ih hrest
          refine ⟨Level.cons pre lq list left hpre hshort ?_ hunder hlist hleft, htail, ?_, hafter⟩
          · exact fun other hother => hapart other (List.mem_append_left _ hother)
          · intro other hother
            rcases List.mem_cons.mp hother with rfl | hother
            · exact hapart block (List.mem_append_right _ List.mem_cons_self)
            · exact hbefore other hother

-- The elements of a block: its first one, or one below it
theorem Block.mem {pre : Bytes} {block : Lq α × Locations α} (h : Block pre block) (lx : Lq α)
    (hlx : lx = block.1 ∨ lx ∈ block.2.entries) :
    block.1.name <+: lx.name ∧ (lx = block.1 ∨ block.1.inclusive ≠ none ∧ block.1.name ≠ lx.name) := by
  rcases hlx with rfl | hlx
  · exact ⟨List.prefix_rfl, Or.inl rfl⟩
  · obtain ⟨hinc, hpre, hne⟩ := h.under lx hlx
    exact ⟨hpre, Or.inr ⟨hinc, hne⟩⟩

-- A block whose name does not begin the URI followed by a slash
theorem Block.idle_of_apart {pre : Bytes} {block : Lq α × Locations α} (h : Block pre block)
    (hnot : ¬block.1.name <+: slashed uri) (lx : Lq α) (hlx : lx = block.1 ∨ lx ∈ block.2.entries) :
    Idle locations uri lx := by
  have hbegin := (h.mem lx hlx).1
  refine ⟨?_, ?_, ?_⟩
  · intro hname
    exact hnot ((hname ▸ hbegin).trans (prefix_slashed uri))
  · intro _ hpre
    exact hnot ((hbegin.trans hpre).trans (prefix_slashed uri))
  · intro hname
    exact absurd (hname ▸ hbegin) hnot

-- The block of an exact location that only begins the URI
theorem Block.idle_of_exact {pre : Bytes} {block : Lq α × Locations α} (h : Block pre block)
    (hnone : block.1.inclusive = none) (hless : NameLess block.1.name uri) (lx : Lq α)
    (hlx : lx = block.1 ∨ lx ∈ block.2.entries) : Idle locations uri lx := by
  rcases (h.mem lx hlx).2 with rfl | ⟨hinc, -⟩
  · refine ⟨?_, fun hinc => absurd hnone hinc, ?_⟩
    · intro hname
      rw [hname] at hless
      exact Less.irrefl hless
    · intro hname
      rw [hname] at hless
      exact absurd (prefix_slashed uri) hless.not_start
  · exact absurd hnone hinc

-- Before an element that stands before the URI, nothing matters.
theorem Block.idle_before {pre : Bytes} {block : Lq α × Locations α} (h : Block pre block) {lq : Lq α}
    (hapart : Apart block.1 lq) (hless : NameLess lq.name uri) (lx : Lq α)
    (hlx : lx = block.1 ∨ lx ∈ block.2.entries) : Idle locations uri lx := by
  have hbefore : NameLess block.1.name uri := hapart.1.trans toNat_injective hless
  by_cases hpre : block.1.name <+: slashed uri
  · have hpre' : block.1.name <+: lq.name :=
      hapart.1.between (hless.trans toNat_injective (less_slashed uri)) hpre
    have hnone : block.1.inclusive = none := by
      by_contra hinc
      exact hapart.2 hinc hpre'
    exact h.idle_of_exact hnone hbefore lx hlx
  · exact h.idle_of_apart hpre lx hlx

-- Behind a name that is not before the URI followed by a slash, nothing matters.
theorem Block.idle_behind {pre : Bytes} {block : Lq α × Locations α} (h : Block pre block)
    (hless : NameLess (slashed uri) block.1.name) (lx : Lq α) (hlx : lx = block.1 ∨ lx ∈ block.2.entries) :
    Idle locations uri lx :=
  h.idle_of_apart hless.not_start lx hlx

-- Behind the URI, only a redirect can be missed.
theorem Block.idle_between {pre : Bytes} {block : Lq α × Locations α} (h : Block pre block)
    (hless : NameLess uri block.1.name) (hbetween : Between locations uri) (lx : Lq α)
    (hlx : lx = block.1 ∨ lx ∈ block.2.entries) : Idle locations uri lx := by
  have hbegin := (h.mem lx hlx).1
  refine ⟨?_, ?_, fun _ _ => hbetween⟩
  · intro hname
    exact hless.not_start (hname ▸ hbegin)
  · exact fun _ hpre => hless.not_start (hbegin.trans hpre)

section

variable {pre : Bytes} {left tail : List (Lq α × Locations α)} {lq : Lq α} {list : Locations α} {rv rc : Rc}
  {own locConf : α}

theorem mem_entriesOf_split (lx : Lq α) :
    lx ∈ entriesOf (left ++ (lq, list) :: tail) ↔
      lx ∈ entriesOf left ∨ (lx = lq ∨ lx ∈ list.entries) ∨ lx ∈ entriesOf tail := by
  simp only [entriesOf, List.flatMap_append, List.flatMap_cons, List.mem_append, List.mem_cons]

theorem idle_left (h : Level pre (left ++ (lq, list) :: tail)) (hless : NameLess lq.name uri) :
    ∀ lx ∈ entriesOf left, Idle locations uri lx := by
  intro lx hlx
  obtain ⟨block, hblock, hin⟩ := (mem_entriesOf left lx).mp hlx
  exact (h.split.1.block block hblock).idle_before (h.split.2.2.1 block hblock) hless lx hin

theorem idle_tail (h : Level pre (left ++ (lq, list) :: tail))
    (hle : lq.name = slashed uri ∨ NameLess (slashed uri) lq.name) :
    ∀ lx ∈ entriesOf tail, Idle locations uri lx := by
  intro lx hlx
  obtain ⟨block, hblock, hin⟩ := (mem_entriesOf tail lx).mp hlx
  have hafter := (h.split.2.2.2 block hblock).1
  have hless : NameLess (slashed uri) block.1.name := by
    rcases hle with heq | hless
    · exact heq ▸ hafter
    · exact hless.trans toNat_injective hafter
  exact (h.split.2.1.block block hblock).idle_behind hless lx hin

theorem level_block (h : Level pre (left ++ (lq, list) :: tail)) : Block pre (lq, list) :=
  h.block (lq, list) (List.mem_append_right _ List.mem_cons_self)

-- The search goes into the second half.
theorem answer_right (hlevel : Level pre (left ++ (lq, list) :: tail)) (hless : NameLess lq.name uri)
    (hmiddle : ∀ lx, lx = lq ∨ lx ∈ list.entries → Idle (entriesOf (left ++ (lq, list) :: tail)) uri lx)
    (h : Answer (entriesOf tail) uri rv own rc locConf) :
    Answer (entriesOf (left ++ (lq, list) :: tail)) uri rv own rc locConf := by
  refine h.of_part (fun lx hlx => mem_entriesOf_split lx |>.mpr (Or.inr (Or.inr hlx))) ?_
  intro lx hlx
  rcases (mem_entriesOf_split lx).mp hlx with hin | hin | hin
  · exact Or.inr (idle_left hlevel hless lx hin)
  · exact Or.inr (hmiddle lx hin)
  · exact Or.inl hin

-- The search goes into the first half, from an element that is not the redirect.
theorem answer_left (hlevel : Level pre (left ++ (lq, list) :: tail)) (hless : NameLess uri lq.name)
    (hno : lq.name = slashed uri → lq.redirects = false) (h : Answer (entriesOf left) uri rv own rc locConf) :
    Answer (entriesOf (left ++ (lq, list) :: tail)) uri rv own rc locConf := by
  have hmem : lq ∈ entriesOf (left ++ (lq, list) :: tail) :=
    (mem_entriesOf_split lq).mpr (Or.inr (Or.inl (Or.inl rfl)))
  refine h.of_part (fun lx hlx => mem_entriesOf_split lx |>.mpr (Or.inl hlx)) ?_
  intro lx hlx
  rcases (mem_entriesOf_split lx).mp hlx with hin | hin | hin
  · exact Or.inl hin
  · refine Or.inr ?_
    rcases less_or toNat_injective lq.name (slashed uri) with hbetween | heq | hbehind
    · have hpre := hless.between hbetween (prefix_slashed uri)
      have hne : uri ≠ lq.name := fun heq => Less.irrefl (heq ▸ hless)
      exact (level_block hlevel).idle_between hless ⟨lq, hmem, hpre, hne, hbetween⟩ lx hin
    · obtain ⟨hbegin, hcase⟩ := (level_block hlevel).mem lx hin
      refine ⟨?_, ?_, ?_⟩
      · intro hname
        exact hless.not_start (hname ▸ hbegin)
      · exact fun _ hpre => hless.not_start (hbegin.trans hpre)
      · intro hname hred
        rcases hcase with rfl | ⟨-, hne⟩
        · rw [hno hname] at hred
          exact absurd hred (by simp)
        · exact absurd (heq.trans hname.symm) hne
    · exact (level_block hlevel).idle_behind hbehind lx hin
  · refine Or.inr ?_
    rcases less_or toNat_injective lq.name (slashed uri) with hbetween | heq | hbehind
    · have hpre := hless.between hbetween (prefix_slashed uri)
      have hne : uri ≠ lq.name := fun heq => Less.irrefl (heq ▸ hless)
      obtain ⟨block, hblock, hlx'⟩ := (mem_entriesOf tail lx).mp hin
      have hafter := hless.trans toNat_injective (hlevel.split.2.2.2 block hblock).1
      exact (hlevel.split.2.1.block block hblock).idle_between hafter ⟨lq, hmem, hpre, hne, hbetween⟩ lx hlx'
    · exact idle_tail hlevel (Or.inl heq) lx hin
    · exact idle_tail hlevel (Or.inr hbehind) lx hin

-- The search goes into the first half, from the redirect.
theorem answer_redirect (hlevel : Level pre (left ++ (lq, list) :: tail)) (hname : lq.name = slashed uri)
    (hred : lq.redirects = true) (clcf : Clcf α) (hfirst : lq.first = some clcf)
    (h : Answer (entriesOf left) uri .done clcf.locConf rc locConf) :
    Answer (entriesOf (left ++ (lq, list) :: tail)) uri rv own rc locConf := by
  have hmem : lq ∈ entriesOf (left ++ (lq, list) :: tail) :=
    (mem_entriesOf_split lq).mpr (Or.inr (Or.inl (Or.inl rfl)))
  refine h.of_redirect hname hred hfirst hmem (fun lx hlx => mem_entriesOf_split lx |>.mpr (Or.inl hlx)) ?_ ?_
  · intro lx hlx
    obtain ⟨block, hblock, hin⟩ := (mem_entriesOf left lx).mp hlx
    have hapart := hlevel.split.2.2.1 block hblock
    obtain ⟨hbegin, hcase⟩ := (hlevel.split.1.block block hblock).mem lx hin
    constructor
    · intro heq
      rcases hcase with rfl | ⟨hinc, -⟩
      · have hirr : NameLess block.1.name lq.name := hapart.1
        rw [heq, hname] at hirr
        exact Less.irrefl hirr
      · exact hapart.2 hinc (hname ▸ heq ▸ hbegin)
    · intro hinc hpre
      have hprefix : block.1.name <+: lq.name := (hbegin.trans hpre).trans (hname ▸ prefix_slashed uri)
      rcases hcase with rfl | ⟨hinc', -⟩
      · exact hapart.2 hinc hprefix
      · exact hapart.2 hinc' hprefix
  · intro lx hlx
    rcases (mem_entriesOf_split lx).mp hlx with hin | hin | hin
    · exact Or.inl hin
    · refine Or.inr ?_
      intro heq
      have hbegin := ((level_block hlevel).mem lx hin).1
      rw [heq, hname] at hbegin
      exact (less_slashed uri).not_start hbegin
    · exact Or.inr (@idle_tail _ [] uri pre left tail lq list hlevel (Or.inl hname) lx hin).name

-- The search goes into the tree below an element.
theorem answer_under (hlevel : Level pre (left ++ (lq, list) :: tail)) (clcf : Clcf α)
    (hinc : lq.inclusive = some clcf) (hpre : lq.name <+: uri) (hne : lq.name ≠ uri)
    (h : Answer list.entries uri .again clcf.locConf rc locConf) :
    Answer (entriesOf (left ++ (lq, list) :: tail)) uri rv own rc locConf := by
  have hless : NameLess lq.name uri := Less.of_begins hpre hne
  have hmem : lq ∈ entriesOf (left ++ (lq, list) :: tail) :=
    (mem_entriesOf_split lq).mpr (Or.inr (Or.inl (Or.inl rfl)))
  refine h.of_under hinc hpre hne hmem ?_ ?_
  · intro lx hlx
    exact ⟨(mem_entriesOf_split lx).mpr (Or.inr (Or.inl (Or.inr hlx))), ((level_block hlevel).under lx hlx).2.1⟩
  · intro lx hlx
    rcases (mem_entriesOf_split lx).mp hlx with hin | hin | hin
    · exact Or.inr (Or.inr (idle_left hlevel hless lx hin))
    · rcases hin with rfl | hin
      · exact Or.inr (Or.inl rfl)
      · exact Or.inl hin
    · obtain ⟨block, hblock, hlx'⟩ := (mem_entriesOf tail lx).mp hin
      have hapart := hlevel.split.2.2.2 block hblock
      have hnot : ¬block.1.name <+: slashed uri := by
        intro hbegin
        rcases List.prefix_or_prefix_of_prefix (hpre.trans (prefix_slashed uri)) hbegin with hpq | hqp
        · exact hapart.2 (by simp [hinc]) hpq
        · exact hapart.1.not_start hqp
      exact Or.inr (Or.inr ((hlevel.split.2.1.block block hblock).idle_of_apart hnot lx hlx'))

end

end Nginx.Location
