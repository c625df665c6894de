import Nginx.Core.Hash

namespace Nginx.Hash

-- A call of ngx_hash_add_key with its flags
structure Call where
  key : Bytes
  value : Nat
  wildcardKey : Bool
  readonlyKey : Bool

def Added.rejected : Added → Bool
  | .ok _ => false
  | .declined => true
  | .busy _ => true

-- The arrays behind a call; NGX_DECLINED is returned before anything is written.
def Added.arrays (ha : KeysArrays) : Added → KeysArrays
  | .ok ha => ha
  | .declined => ha
  | .busy ha => ha

def KeysArrays.add (ha : KeysArrays) (call : Call) : Added :=
  addKey ha call.key call.value call.wildcardKey call.readonlyKey

-- Each call of a run that is rejected leaves the arrays as they are.
def Traceless (ha : KeysArrays) : List Call → Prop
  | [] => True
  | call :: calls =>
      ((ha.add call).rejected = true → (ha.add call).arrays ha = ha) ∧ Traceless ((ha.add call).arrays ha) calls

-- A wildcard that is new among the exact names, but not among the wildcards of its kind. It is in the arrays when
-- that is seen.
def lateWildcard (ha : KeysArrays) (key name : Bytes) (skip : Nat) : Bool :=
  let k := hashKey name % ha.hsize
  !(skip = 1 && conflicts name (ha.keysHash k)) &&
    if skip ≠ 0 then conflicts name (ha.dnsWcHeadHash k)
    else conflicts (key.take (name.length + 1)) (ha.dnsWcTailHash k)

def lateConflict (ha : KeysArrays) (call : Call) : Bool :=
  match if call.wildcardKey then keyForm call.key else some .exact with
  | some (.wildcard skip last) =>
      let name := ((call.key.take last).drop skip).map tolower
      lateWildcard ha (call.key.take skip ++ name ++ call.key.drop last) name skip
  | _ => false

def EarlyConflicts (ha : KeysArrays) : List Call → Prop
  | [] => True
  | call :: calls => lateConflict ha call = false ∧ EarlyConflicts ((ha.add call).arrays ha) calls

theorem addExact_traceless (ha : KeysArrays) (key : Bytes) (value : Nat)
    (h : (addExact ha key value).rejected = true) : (addExact ha key value).arrays ha = ha := by
  simp only [addExact] at h ⊢
  split
  · rfl
  · rename_i hconflict
    rw [if_neg hconflict] at h
    cases h

-- A wildcard that is found late stays in its array.
theorem addWildcard_late (ha : KeysArrays) (key name : Bytes) (skip value : Nat)
    (h : lateWildcard ha key name skip = true) :
    (addWildcard ha key name skip value).rejected = true ∧
      (addWildcard ha key name skip value).arrays ha ≠ ha := by
  simp only [lateWildcard, Bool.and_eq_true, Bool.not_eq_true', Bool.and_eq_false_iff, decide_eq_false_iff_not] at h
  obtain ⟨hexact, hlate⟩ := h
  have hpass : ¬(skip = 1 ∧ conflicts name (ha.keysHash (hashKey name % ha.hsize)) = true) := by
    rintro ⟨hone, hconflict⟩
    rcases hexact with hexact | hexact
    · exact hexact hone
    · rw [hconflict] at hexact
      cases hexact
  simp only [addWildcard, if_neg hpass]
  by_cases hskip : skip ≠ 0
  · rw [if_pos hskip] at hlate
    have hhash : ∀ keysHash, (if skip = 1 then { ha with keysHash := keysHash } else ha).dnsWcHeadHash =
        ha.dnsWcHeadHash := by
      intro keysHash
      split <;> rfl
    have hhead : ∀ keysHash, (if skip = 1 then { ha with keysHash := keysHash } else ha).dnsWcHead =
        ha.dnsWcHead := by
      intro keysHash
      split <;> rfl
    rw [if_pos hskip]
    simp only [hhash, hlate, if_true, hhead]
    refine ⟨rfl, fun heq => ?_⟩
    have hlen := congrArg (fun ha => ha.dnsWcHead.length) heq
    simp [Added.arrays] at hlen
  · rw [if_neg hskip] at hlate
    have hone : ¬skip = 1 := by omega
    rw [if_neg hskip]
    simp only [if_neg hone, hlate, if_true]
    refine ⟨rfl, fun heq => ?_⟩
    have hlen := congrArg (fun ha => ha.dnsWcTail.length) heq
    simp [Added.arrays] at hlen

theorem addWildcard_early (ha : KeysArrays) (key name : Bytes) (skip value : Nat)
    (h : lateWildcard ha key name skip = false) (hrejected : (addWildcard ha key name skip value).rejected = true) :
    (addWildcard ha key name skip value).arrays ha = ha := by
  by_cases hpass : skip = 1 ∧ conflicts name (ha.keysHash (hashKey name % ha.hsize)) = true
  · simp only [addWildcard, if_pos hpass]
    rfl
  · exfalso
    have hexact : (decide (skip = 1) && conflicts name (ha.keysHash (hashKey name % ha.hsize))) = false := by
      rw [Bool.and_eq_false_iff, decide_eq_false_iff_not, ← Bool.not_eq_true]
      exact Decidable.not_and_iff_or_not.mp hpass
    simp only [lateWildcard, hexact, Bool.not_false, Bool.true_and] at h
    simp only [addWildcard, if_neg hpass] at hrejected
    by_cases hskip : skip ≠ 0
    · rw [if_pos hskip] at h hrejected
      have hhash : ∀ keysHash, (if skip = 1 then { ha with keysHash := keysHash } else ha).dnsWcHeadHash =
          ha.dnsWcHeadHash := by
        intro keysHash
        split <;> rfl
      simp only [hhash, h, Bool.false_eq_true, if_false] at hrejected
      cases hrejected
    · have hone : ¬skip = 1 := by omega
      rw [if_neg hskip] at h hrejected
      simp only [if_neg hone, h, Bool.false_eq_true, if_false] at hrejected
      cases hrejected

-- One call
theorem add_traceless_iff (ha : KeysArrays) (call : Call) :
    ((ha.add call).rejected = true → (ha.add call).arrays ha = ha) ↔ lateConflict ha call = false := by
  unfold KeysArrays.add addKey lateConflict
  dsimp only
  split
  · rename_i hform
    rw [hform]
    exact ⟨fun _ => rfl, fun _ _ => rfl⟩
  · rename_i hform
    rw [hform]
    exact ⟨fun _ => rfl, fun _ hrejected => addExact_traceless _ _ _ hrejected⟩
  · rename_i skip last hform
    rw [hform]
    dsimp only
    constructor
    · intro h
      by_contra hlate
      rw [Bool.not_eq_false] at hlate
      obtain ⟨hrejected, hne⟩ := addWildcard_late ha _ _ skip call.value hlate
      exact hne (h hrejected)
    · exact fun h hrejected => addWildcard_early ha _ _ skip call.value h hrejected

-- Rejected names leave no trace exactly when no wildcard of the run is found to conflict with another wildcard.
theorem traceless_iff (ha : KeysArrays) (calls : List Call) : Traceless ha calls ↔ EarlyConflicts ha calls := by
  induction calls generalizing ha with
  | nil => exact Iff.rfl
  | cons call calls ih => rw [Traceless, EarlyConflicts, add_traceless_iff, ih]

-- The same wildcard twice: the second one is rejected and stays.
theorem twice_added_wildcard :
    ¬Traceless .large [⟨ngxString "*.a.b", 1, true, false⟩, ⟨ngxString "*.a.b", 2, true, false⟩] := by
  rintro ⟨-, hlate, -⟩
  rw [add_traceless_iff] at hlate
  have hconflict : lateConflict ((KeysArrays.large.add ⟨ngxString "*.a.b", 1, true, false⟩).arrays .large)
      ⟨ngxString "*.a.b", 2, true, false⟩ = true := by decide
  rw [hconflict] at hlate
  cases hlate

end Nginx.Hash
