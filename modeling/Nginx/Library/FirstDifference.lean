import Mathlib

-- The lexicographic order of sequences, told from the place where two of them first differ.
namespace FirstDifference

variable {α β : Type} [LinearOrder β] (key : α → β)

-- At the first place where they differ, both go on and the first one has the smaller key.
inductive Below : List α → List α → Prop
  | head (x y : α) (as bs : List α) : key x < key y → Below (x :: as) (y :: bs)
  | tail (x : α) (as bs : List α) : Below as bs → Below (x :: as) (x :: bs)

-- What begins a sequence stands before it.
def Less (as bs : List α) : Prop := Below key as bs ∨ as <+: bs ∧ as.length < bs.length

variable {key} {as bs cs : List α}

theorem Below.mono (as' bs' : List α) (h : Below key as bs) (ha : as <+: as') (hb : bs <+: bs') :
    Below key as' bs' := by
  obtain ⟨ta, rfl⟩ := ha
  obtain ⟨tb, rfl⟩ := hb
  induction h with
  | head x y as bs hxy => exact Below.head x y (as ++ ta) (bs ++ tb) hxy
  | tail x as bs h ih => exact Below.tail x (as ++ ta) (bs ++ tb) ih

theorem Below.not_start (h : Below key as bs) : ¬as <+: bs := by
  induction h with
  | head x y as bs hxy =>
      intro hpre
      rw [(List.cons_prefix_cons.mp hpre).1] at hxy
      exact lt_irrefl _ hxy
  | tail x as bs h ih => exact fun hpre => ih (List.cons_prefix_cons.mp hpre).2

theorem Below.not_start' (h : Below key as bs) : ¬bs <+: as := by
  induction h with
  | head x y as bs hxy =>
      intro hpre
      rw [(List.cons_prefix_cons.mp hpre).1] at hxy
      exact lt_irrefl _ hxy
  | tail x as bs h ih => exact fun hpre => ih (List.cons_prefix_cons.mp hpre).2

theorem Below.asymm (h : Below key as bs) : ¬Below key bs as := by
  induction h with
  | head x y as bs hxy =>
      intro hyx
      cases hyx with
      | head _ _ _ _ hlt => exact lt_asymm hxy hlt
      | tail _ _ _ _ => exact lt_irrefl _ hxy
  | tail x as bs h ih =>
      intro hyx
      cases hyx with
      | head _ _ _ _ hlt => exact lt_irrefl _ hlt
      | tail _ _ _ hlt => exact ih hlt

theorem Below.trans (h : Below key as bs) (h' : Below key bs cs) : Below key as cs := by
  induction h generalizing cs with
  | head x y as bs hxy =>
      cases h' with
      | head _ z _ cs hyz => exact Below.head x z as cs (lt_trans hxy hyz)
      | tail _ _ cs _ => exact Below.head x y as cs hxy
  | tail x as bs h ih =>
      cases h' with
      | head _ z _ cs hyz => exact Below.head x z as cs hyz
      | tail _ _ cs h' => exact Below.tail x as cs (ih h')

theorem below_append_iff (l : List α) : Below key (l ++ as) (l ++ bs) ↔ Below key as bs := by
  induction l with
  | nil => rfl
  | cons x l ih =>
      constructor
      · intro h
        cases h with
        | head _ _ _ _ hlt => exact absurd hlt (lt_irrefl _)
        | tail _ _ _ h => exact ih.mp h
      · exact fun h => Below.tail x _ _ (ih.mpr h)

-- Two sequences differ at some place, or one begins the other.
theorem cases (hkey : Function.Injective key) (as bs : List α) :
    Below key as bs ∨ Below key bs as ∨ as <+: bs ∨ bs <+: as := by
  induction as generalizing bs with
  | nil => exact Or.inr (Or.inr (Or.inl (List.nil_prefix)))
  | cons x as ih =>
      cases bs with
      | nil => exact Or.inr (Or.inr (Or.inr (List.nil_prefix)))
      | cons y bs =>
          rcases lt_trichotomy (key x) (key y) with hlt | heq | hgt
          · exact Or.inl (Below.head x y as bs hlt)
          · obtain rfl := hkey heq
            rcases ih bs with h | h | h | h
            · exact Or.inl (Below.tail x as bs h)
            · exact Or.inr (Or.inl (Below.tail x bs as h))
            · exact Or.inr (Or.inr (Or.inl (List.cons_prefix_cons.mpr ⟨rfl, h⟩)))
            · exact Or.inr (Or.inr (Or.inr (List.cons_prefix_cons.mpr ⟨rfl, h⟩)))
          · exact Or.inr (Or.inl (Below.head y x bs as hgt))

-- What begins a sequence and a difference from it lie on the same side.
theorem Below.of_begins (h : Below key bs cs) (hpre : as <+: bs) (hkey : Function.Injective key) :
    as <+: cs ∨ Below key as cs := by
  rcases cases hkey as cs with hlt | hgt | hle | hge
  · exact Or.inr hlt
  · exact absurd (hgt.mono cs bs List.prefix_rfl hpre) h.asymm
  · exact Or.inl hle
  · exact absurd (hge.trans hpre) h.not_start'

theorem Less.irrefl : ¬Less key as as := by
  rintro (h | ⟨-, h⟩)
  · exact h.not_start List.prefix_rfl
  · exact lt_irrefl _ h

theorem Less.trans (hkey : Function.Injective key) (h : Less key as bs) (h' : Less key bs cs) :
    Less key as cs := by
  rcases h with h | ⟨hab, hlt⟩
  · rcases h' with h' | ⟨hbc, -⟩
    · exact Or.inl (h.trans h')
    · exact Or.inl (h.mono as cs List.prefix_rfl hbc)
  · rcases h' with h' | ⟨hbc, hlt'⟩
    · rcases h'.of_begins hab hkey with hpre | hbelow
      · refine Or.inr ⟨hpre, ?_⟩
        by_contra hle
        have heq : as = cs := hpre.eq_of_length (Nat.le_antisymm hpre.length_le (Nat.le_of_not_lt hle))
        exact h'.not_start' (heq ▸ hab)
      · exact Or.inl hbelow
    · exact Or.inr ⟨hab.trans hbc, Nat.lt_trans hlt hlt'⟩

theorem Less.asymm (hkey : Function.Injective key) (h : Less key as bs) : ¬Less key bs as :=
  fun h' => Less.irrefl (h.trans hkey h')

theorem Less.not_start (h : Less key as bs) : ¬bs <+: as := by
  intro hpre
  rcases h with h | ⟨-, hlt⟩
  · exact h.not_start' hpre
  · exact absurd hpre.length_le (Nat.not_le_of_lt hlt)

theorem less_or (hkey : Function.Injective key) (as bs : List α) :
    Less key as bs ∨ as = bs ∨ Less key bs as := by
  rcases cases hkey as bs with h | h | h | h
  · exact Or.inl (Or.inl h)
  · exact Or.inr (Or.inr (Or.inl h))
  · rcases Nat.lt_or_ge as.length bs.length with hlt | hge
    · exact Or.inl (Or.inr ⟨h, hlt⟩)
    · exact Or.inr (Or.inl (h.eq_of_length (Nat.le_antisymm h.length_le hge)))
  · rcases Nat.lt_or_ge bs.length as.length with hlt | hge
    · exact Or.inr (Or.inr (Or.inr ⟨h, hlt⟩))
    · exact Or.inr (Or.inl (h.eq_of_length (Nat.le_antisymm h.length_le hge)).symm)

theorem Less.of_begins (hpre : as <+: bs) (hne : as ≠ bs) : Less key as bs := by
  refine Or.inr ⟨hpre, ?_⟩
  by_contra hle
  exact hne (hpre.eq_of_length (Nat.le_antisymm hpre.length_le (Nat.le_of_not_lt hle)))

-- Between a sequence and one that goes on from it, every sequence goes on from it.
theorem Less.between (h : Less key as bs) (h' : Less key bs cs) (hpre : as <+: cs) : as <+: bs := by
  rcases h with h | ⟨hab, -⟩
  · rcases h' with h' | ⟨hbc, -⟩
    · exact absurd (h.trans h') (fun hlt => hlt.not_start hpre)
    · exact absurd (h.mono as cs List.prefix_rfl hbc) (fun hlt => hlt.not_start hpre)
  · exact hab

end FirstDifference
