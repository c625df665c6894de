import Nginx.Http.Geo.Delete

namespace Nginx.Geo

open IntervalList

variable {V : Type} {a front back : List (Range V)} {r : Range V} {h fuel : ℕ} {line : Line V} {low low' : Low V}
  {log : List (Line V × Low V)} {visited : List ℕ} {warn : Bool}

-- What a line adds to a block
def piece (line : Line V) (h : ℕ) : Range V :=
  ⟨line.value, (clip line.start line.stop h).1, (clip line.start line.stop h).2⟩

-- The line is in the table as it was added, with every piece.
def Present (low : Low V) (line : Line V) : Prop :=
  ∀ h, Meets line.start line.stop h → ∃ a, low h = some a ∧ piece line h ∈ a

structure Undone (low low' : Low V) (line : Line V) : Prop where
  removed : ∀ h, Meets line.start line.stop h → ∀ a, low' h = some a → piece line h ∉ a
  gone : ∀ addr, line.start ≤ addr → addr ≤ line.stop → value low' addr = none
  others : ∀ h a, low h = some a → ∀ r ∈ a, (Meets line.start line.stop h → r ≠ piece line h) →
    ∃ a', low' h = some a' ∧ r ∈ a'
  kept : ∀ addr, ¬(line.start ≤ addr ∧ addr ≤ line.stop) → value low' addr = value low addr

theorem erase_mid (hsorted : Sorted (front ++ r :: back)) :
    (erase r.start r.stop (front ++ r :: back)).1 = front ++ back := by
  induction front with
  | nil => rw [List.nil_append, List.nil_append, erase, if_pos ⟨rfl, rfl⟩]
  | cons q front ih =>
      rw [List.cons_append] at hsorted ⊢
      obtain ⟨hq, hrest, hafter⟩ := sorted_cons.mp hsorted
      have hbefore := hafter r (List.mem_append_right _ List.mem_cons_self)
      rw [erase, if_neg (by omega), ih hrest]
      rfl

theorem find_of_mem (hsorted : Sorted a) (hr : r ∈ a) {x : ℕ} (hx : r.start ≤ x ∧ x ≤ r.stop) :
    find a x = some r.value := by
  obtain ⟨front, back, rfl⟩ := List.append_of_mem hr
  have hnone : find front x = none := find_eq_none fun q hq hin => by
    have hbefore := (sorted_append.mp hsorted).2.2 q hq r List.mem_cons_self
    omega
  rw [find_append, hnone, find, if_pos hx]
  rfl

-- No accepted line reaches the last block.
theorem accepted_bounded (h : Accepted log low) : ∀ line ∈ log.map (·.1), line.stop < 0xffff0000 := by
  induction h with
  | start => simp
  | @add log low low' line fuel _ hrun ih =>
      have hline : line.stop < 0xffff0000 := by
        by_contra hno
        exact addRange_wraps fuel line.start (by omega) line.ordered hrun
      simpa using ⟨hline, by simpa using ih⟩

theorem accepted_low (h : Accepted log low) (hfits : ∀ step ∈ log, Fits step.2 step.1) {k : ℕ} (hk : low k = some a) :
    k < 65535 := by
  obtain ⟨htable, hvalue⟩ := accepted_table h hfits
  obtain ⟨hblock, hne⟩ := htable k a hk
  obtain ⟨r, a', rfl⟩ := List.exists_cons_of_ne_nil hne
  have hproper := hblock.sorted.proper r List.mem_cons_self
  have hbound := hblock.bounded r List.mem_cons_self
  have hfind := find_of_mem hblock.sorted List.mem_cons_self ⟨Nat.le_refl r.start, hproper⟩
  have haddr := hvalue (k * 65536 + r.start)
  have hdiv : (k * 65536 + r.start) / 65536 = k := by omega
  have hmod : (k * 65536 + r.start) % 65536 = r.start := by omega
  rw [value, hdiv, hmod, hk, Option.getD_some, hfind, lastValue] at haddr
  obtain ⟨line, hline, -⟩ := Option.map_eq_some_iff.mp haddr.symm
  have hin := List.find?_some hline
  have hstop := accepted_bounded h line (List.mem_of_find?_eq_some hline)
  simp only [Bool.and_eq_true, decide_eq_true_eq] at hin
  omega

-- An address of the line is in the piece of its block.
theorem piece_has (line : Line V) {addr : ℕ} (haddr : addr / 65536 = h) (hmeets : Meets line.start line.stop h) :
    (line.start ≤ addr ∧ addr ≤ line.stop) ↔
      (piece line h).start ≤ addr % 65536 ∧ addr % 65536 ≤ (piece line h).stop := by
  have hblocks := (meets_iff line.ordered).mp hmeets
  dsimp only [piece, clip]
  by_cases hfirst : h = line.start / 65536
  · by_cases hlast : h = line.stop / 65536
    · rw [if_pos hfirst, if_pos hlast]
      omega
    · rw [if_pos hfirst, if_neg hlast]
      omega
  · by_cases hlast : h = line.stop / 65536
    · rw [if_neg hfirst, if_pos hlast]
      omega
    · rw [if_neg hfirst, if_neg hlast]
      omega

-- The array of a block in which a piece was, and is not any more
theorem cleared_spec (htable : Table low) (hpresent : Present low line) (hmeets : Meets line.start line.stop h) :
    ∃ front back, low h = some (front ++ piece line h :: back) ∧ Sorted (front ++ piece line h :: back) ∧
      cleared line.start line.stop low h = some (front ++ back) := by
  obtain ⟨a, ha, hmem⟩ := hpresent h hmeets
  obtain ⟨front, back, rfl⟩ := List.append_of_mem hmem
  have hsorted := (htable h _ ha).1.sorted
  have herase := erase_mid hsorted
  refine ⟨front, back, ha, hsorted, ?_⟩
  rw [cleared, ha, Option.map_some]
  exact congrArg some herase

theorem not_mem_rest (hsorted : Sorted (front ++ r :: back)) : r ∉ front ++ back := by
  obtain ⟨-, hrest, hcross⟩ := sorted_append.mp hsorted
  obtain ⟨hproper, -, hafter⟩ := sorted_cons.mp hrest
  intro hmem
  rcases List.mem_append.mp hmem with hr | hr
  · have hbefore := hcross r hr r List.mem_cons_self
    omega
  · have hbehind := hafter r hr
    omega

theorem undone_of_up (htable : Table low) (hpresent : Present low line)
    (hlow' : ∀ k, low' k = if line.start / 65536 ≤ k ∧ k ≤ line.stop / 65536
      then cleared line.start line.stop low k else low k) : Undone low low' line := by
  have hmet : ∀ k, Meets line.start line.stop k → low' k = cleared line.start line.stop low k := fun k hk => by
    rw [hlow' k, if_pos ((meets_iff line.ordered).mp hk)]
  have hother : ∀ k, ¬Meets line.start line.stop k → low' k = low k := fun k hk => by
    rw [hlow' k, if_neg (mt (meets_iff line.ordered).mpr hk)]
  have hfind : ∀ addr, Meets line.start line.stop (addr / 65536) → value low' addr =
      if line.start ≤ addr ∧ addr ≤ line.stop then none else value low addr := by
    intro addr hmeets
    obtain ⟨front, back, harray, hsorted, hcleared⟩ := cleared_spec htable hpresent hmeets
    rw [value, hmet _ hmeets, hcleared, Option.getD_some, find_remove hsorted, value, harray, Option.getD_some]
    exact if_congr (piece_has line rfl hmeets).symm rfl rfl
  constructor
  case removed =>
    intro h hmeets a ha
    obtain ⟨front, back, -, hsorted, hcleared⟩ := cleared_spec htable hpresent hmeets
    rw [hmet h hmeets, hcleared] at ha
    cases ha
    exact not_mem_rest hsorted
  case gone =>
    intro addr hstart hstop
    rw [hfind addr ⟨addr, hstart, hstop, rfl⟩, if_pos ⟨hstart, hstop⟩]
  case others =>
    intro h a ha r hr hne
    by_cases hmeets : Meets line.start line.stop h
    · obtain ⟨front, back, harray, -, hcleared⟩ := cleared_spec htable hpresent hmeets
      rw [harray] at ha
      cases ha
      refine ⟨front ++ back, by rw [hmet h hmeets, hcleared], ?_⟩
      rcases List.mem_append.mp hr with hfront | hrest
      · exact List.mem_append_left _ hfront
      · exact List.mem_append_right _ ((List.mem_cons.mp hrest).resolve_left (hne hmeets))
    · exact ⟨a, by rw [hother h hmeets, ha], hr⟩
  case kept =>
    intro addr hout
    by_cases hmeets : Meets line.start line.stop (addr / 65536)
    · rw [hfind addr hmeets, if_neg hout]
    · rw [value, hother _ hmeets]
      rfl

-- The block that is stepped over keeps its piece.
theorem low_of_undone (hpresent : Present low line)
    (hrun : deleteRange line.start line.stop fuel low line.start false = some (visited, low', warn))
    (hundone : Undone low low' line) : line.start % 65536 ≤ line.stop % 65536 := by
  by_contra hlow
  obtain ⟨hhere, hframe⟩ := deleteRange_visited rfl hrun
  have hblocks : line.start / 65536 ≤ line.stop / 65536 := Nat.div_le_div_right line.ordered
  have hmeets : Meets line.start line.stop (line.stop / 65536) := (meets_iff line.ordered).mpr ⟨hblocks, Nat.le_refl _⟩
  have hover : line.stop / 65536 ∉ visited := fun hmem => by
    have hfrom := hhere _ hmem
    omega
  obtain ⟨a, ha, hmem⟩ := hpresent _ hmeets
  exact hundone.removed _ hmeets a (by rw [hframe _ hover, ha]) hmem

theorem delete_undoes_iff (h : Accepted log low) (hfits : ∀ step ∈ log, Fits step.2 step.1) (hpresent : Present low line) :
    (∃ fuel visited low' warn,
        deleteRange line.start line.stop fuel low line.start false = some (visited, low', warn) ∧ Undone low low' line) ↔
      line.start % 65536 ≤ line.stop % 65536 := by
  constructor
  · rintro ⟨fuel, visited, low', warn, hrun, hundone⟩
    exact low_of_undone hpresent hrun hundone
  · intro hlow
    have hblocks : line.start / 65536 ≤ line.stop / 65536 := Nat.div_le_div_right line.ordered
    obtain ⟨a, ha, -⟩ := hpresent _ ((meets_iff line.ordered).mpr ⟨hblocks, Nat.le_refl _⟩)
    have hstop := accepted_low h hfits ha
    obtain ⟨low', warn, hrun, hlow'⟩ := deleteRange_up rfl (line.stop / 65536 + 2) (by omega) hlow
      (Nat.le_refl line.start) (by omega) (by omega) low false
    exact ⟨_, _, low', warn, hrun, undone_of_up (accepted_table h hfits).1 hpresent hlow'⟩

theorem inner_fits : ∀ step ∈ [(inner, wideTable), (wide, blank)], Fits step.2 step.1 := by
  intro step hstep
  simp only [List.mem_cons, List.not_mem_nil, or_false] at hstep
  rcases hstep with rfl | rfl
  · intro a ha
    cases ha
    exact ⟨⟨1, 5, 65535⟩, by simp, by decide⟩
  · intro a ha
    cases ha

-- 0.0.0.7-0.0.0.9 is taken out of 0.0.0.5-0.1.17.112.
theorem delete_undoes_inner :
    ∃ fuel visited low' warn,
      deleteRange inner.start inner.stop fuel innerTable inner.start false = some (visited, low', warn) ∧
        Undone innerTable low' inner := by
  refine (delete_undoes_iff inner_accepted inner_fits fun h hmeets => ?_).mpr (by decide)
  obtain ⟨hfirst, hlast⟩ := (meets_iff inner.ordered).mp hmeets
  have hzero : h = 0 := Nat.eq_zero_of_le_zero (le_trans hlast (by decide))
  rw [hzero]
  exact ⟨_, rfl, by decide⟩

def unalignedTable : Low ℕ := put (put blank 0x0a00 [⟨1, 0x80, 65535⟩]) 0x0a01 [⟨1, 0, 5⟩]

-- 10.0.0.128-10.1.0.5 is accepted and present, and is not removed.
theorem unaligned_not_undone :
    Accepted [(unaligned, blank)] unalignedTable ∧ Present unalignedTable unaligned ∧
      ¬∃ fuel visited low' warn,
        deleteRange unaligned.start unaligned.stop fuel unalignedTable unaligned.start false =
            some (visited, low', warn) ∧ Undone unalignedTable low' unaligned := by
  have hpresent : Present unalignedTable unaligned := fun h hmeets => by
    obtain ⟨hfirst, hlast⟩ := (meets_iff unaligned.ordered).mp hmeets
    have hblocks : h = 0x0a00 ∨ h = 0x0a01 := by
      have hstart : unaligned.start / 65536 = 0x0a00 := by decide
      have hstop : unaligned.stop / 65536 = 0x0a01 := by decide
      omega
    rcases hblocks with rfl | rfl
    · exact ⟨_, rfl, by decide⟩
    · exact ⟨_, rfl, by decide⟩
  refine ⟨.add unaligned 3 .start ?_, hpresent, fun ⟨fuel, visited, low', warn, hrun, hundone⟩ => ?_⟩
  · simp [addRange, place, unaligned, unalignedTable, blank, ushort, put]
  · exact absurd (low_of_undone hpresent hrun hundone) (by decide)

end Nginx.Geo
