import Nginx.Http.Geo.Runs

namespace Nginx.Geo

open IntervalList

variable {V : Type} {a front back : List (Range V)} {r : Range V} {s e n h x start stop fuel : ℕ} {v : V}
  {line : Line V} {low low' : Low V} {log : List (Line V × Low V)} {visited : List ℕ} {warn warn' : Bool}

-- The loop of ngx_http_geo_delete_range over the array of a block: what is left of it, and the warning
def erase (s e : ℕ) : List (Range V) → List (Range V) × Bool
  | [] => ([], false)
  | r :: a =>
      if s = r.start ∧ e = r.stop then (a, false)
      else (r :: (erase s e a).1, (s = r.start ∨ e = r.stop : Bool) || (erase s e a).2)

-- The loop of ngx_http_geo_delete_range, with the blocks it comes to
def deleteRange (start stop : ℕ) : ℕ → Low V → ℕ → Bool → Option (List ℕ × Low V × Bool)
  | 0, _, _, _ => none
  | fuel + 1, low, n, warn =>
      if n ≤ stop then
        let h := n >>> 16
        let s := if n = start then n &&& 0xffff else 0
        let e := if stop < n ||| 0xffff then stop &&& 0xffff else 0xffff
        let next := (n + 0x10000) % 2 ^ 32
        (match low h with
        | none => deleteRange start stop fuel low next true
        | some a => deleteRange start stop fuel (put low h (erase s e a).1) next (warn || (erase s e a).2)).map
          fun (visited, low', warn') => (h :: visited, low', warn')
      else some ([], low, warn)

-- The loop of ngx_http_geo_add_range, with the blocks it comes to
def addVisits (line : Line V) : ℕ → Low V → ℕ → Option (List ℕ × Except Overlap (Low V))
  | 0, _, _ => none
  | fuel + 1, low, n =>
      if n ≤ line.stop then
        let h := n >>> 16
        let s := if n = line.start then n &&& 0xffff else 0
        let e := if line.stop < n ||| 0xffff then line.stop &&& 0xffff else 0xffff
        match place line.value s e ((low h).getD []).reverse [] with
        | .error (start, stop) => some ([h], .error ⟨h, start, stop⟩)
        | .ok a =>
            (addVisits line fuel (put low h a) ((n + 0x10000) % 2 ^ 32 &&& 0xffff0000)).map
              fun (visited, result) => (h :: visited, result)
      else some ([], .ok low)

theorem addVisits_result (fuel : ℕ) (low : Low V) (n : ℕ) :
    (addVisits line fuel low n).map (·.2) = addRange line fuel low n := by
  induction fuel generalizing low n with
  | zero => rfl
  | succ fuel ih =>
      rw [addVisits, addRange]
      by_cases hle : n ≤ line.stop
      · rw [if_pos hle, if_pos hle]
        dsimp only
        cases place line.value (if n = line.start then n &&& 0xffff else 0)
            (if line.stop < n ||| 0xffff then line.stop &&& 0xffff else 0xffff) ((low (n >>> 16)).getD []).reverse [] with
        | error ends => rfl
        | ok a =>
            dsimp only
            rw [← ih, Option.map_map]
            rfl
      · rw [if_neg hle, if_neg hle]
        rfl

-- A block meets the addresses from start to stop.
def Meets (start stop h : ℕ) : Prop := ∃ addr, start ≤ addr ∧ addr ≤ stop ∧ addr / 65536 = h

-- Each block that meets them is come to once, and no other one is.
def EachOnce (start stop : ℕ) (visited : List ℕ) : Prop :=
  visited.Nodup ∧ ∀ h, h ∈ visited ↔ Meets start stop h

-- For every table the loop of ngx_http_geo_add_range ends, having come to each block once, or the range is refused
-- in a block, and then no block was come to twice and none that the range does not meet.
def AddEnds (line : Line V) : Prop :=
  ∀ low : Low V, ∃ fuel visited result, addVisits line fuel low line.start = some (visited, result) ∧
    match result with
    | .ok _ => EachOnce line.start line.stop visited
    | .error _ => visited.Nodup ∧ ∀ h ∈ visited, Meets line.start line.stop h

def DeleteEnds (V : Type) (start stop : ℕ) : Prop :=
  ∀ low : Low V, ∃ fuel visited low' warn, deleteRange start stop fuel low start false = some (visited, low', warn) ∧
    EachOnce start stop visited

theorem meets_iff (hle : start ≤ stop) : Meets start stop h ↔ start / 65536 ≤ h ∧ h ≤ stop / 65536 := by
  constructor
  · rintro ⟨addr, hstart, hstop, rfl⟩
    exact ⟨Nat.div_le_div_right hstart, Nat.div_le_div_right hstop⟩
  · rintro ⟨hstart, hstop⟩
    rcases Nat.lt_or_ge (start / 65536) h with hafter | hsame
    · exact ⟨h * 65536, by omega, by omega, by omega⟩
    · exact ⟨start, Nat.le_refl start, hle, by omega⟩

-- The blocks of an interval in their order
theorem eachOnce_range (hle : start ≤ stop) :
    EachOnce start stop (List.range' (start / 65536) (stop / 65536 + 1 - start / 65536)) := by
  refine ⟨List.nodup_range', fun h => ?_⟩
  have hblocks : start / 65536 ≤ stop / 65536 := Nat.div_le_div_right hle
  rw [meets_iff hle, List.mem_range'_1]
  omega

-- A line that does not reach the last block goes up block by block.
theorem addVisits_up (fuel : ℕ) (hstop : line.stop < 0xffff0000) (hn : n = line.start ∨ n % 65536 = 0)
    (hnext : n / 65536 ≤ line.stop / 65536 + 1) (hfuel : line.stop / 65536 + 2 ≤ n / 65536 + fuel) (low : Low V) :
    ∃ k result, addVisits line fuel low n = some (List.range' (n / 65536) k, result) ∧
      match result with
      | .ok _ => k = line.stop / 65536 + 1 - n / 65536
      | .error _ => n / 65536 + k ≤ line.stop / 65536 + 1 := by
  have hordered := line.ordered
  induction fuel generalizing low n with
  | zero => omega
  | succ fuel ih =>
      rw [addVisits]
      by_cases hle : n ≤ line.stop
      · rw [if_pos hle]
        dsimp only
        cases place line.value (if n = line.start then n &&& 0xffff else 0)
            (if line.stop < n ||| 0xffff then line.stop &&& 0xffff else 0xffff) ((low (n >>> 16)).getD []).reverse [] with
        | error ends => exact ⟨1, _, by rw [shift_high]; rfl, by dsimp only; omega⟩
        | ok a =>
            dsimp only
            rw [next_block n (by omega)]
            obtain ⟨k, result, hrun, hresult⟩ := ih (n := (n / 65536 + 1) * 65536) (.inr (by omega)) (by omega) (by omega)
              (put low (n >>> 16) a)
            have hblock : (n / 65536 + 1) * 65536 / 65536 = n / 65536 + 1 := by omega
            rw [hblock] at hrun hresult
            refine ⟨k + 1, result, ?_, ?_⟩
            · rw [hrun, shift_high, Option.map_some, List.range'_succ]
            · cases result with
              | ok _ =>
                  dsimp only at hresult ⊢
                  omega
              | error _ =>
                  dsimp only at hresult ⊢
                  omega
      · rw [if_neg hle]
        exact ⟨0, .ok low, rfl, by dsimp only; omega⟩

-- One that reaches it comes to every block from the first one of the line, and then to block 0.
theorem addVisits_round (hstop : 0xffff0000 ≤ line.stop) (hn : n = line.start ∨ n % 65536 = 0) (hbound : n < 2 ^ 32)
    (hempty : ∀ h, n / 65536 ≤ h → low h = none) {result : Except Overlap (Low V)}
    (hrun : addVisits line fuel low n = some (visited, result)) :
    ∃ rest, visited = List.range' (n / 65536) (65536 - n / 65536) ++ 0 :: rest := by
  have hordered := line.ordered
  have hlast := line.bounded
  induction fuel generalizing low n visited with
  | zero => cases hrun
  | succ fuel ih =>
      rw [addVisits, if_pos (by omega)] at hrun
      dsimp only at hrun
      rw [shift_high, hempty _ (Nat.le_refl _), Option.getD_none, List.reverse_nil, place] at hrun
      dsimp only at hrun
      have hcount : 65536 - n / 65536 = 65536 - (n / 65536 + 1) + 1 := by omega
      rw [hcount, List.range'_succ]
      rcases Nat.lt_or_ge n 0xffff0000 with hlow | hhigh
      · rw [next_block n hlow] at hrun
        obtain ⟨⟨visited', result'⟩, hrun', heq⟩ := Option.map_eq_some_iff.mp hrun
        cases heq
        have hblock : (n / 65536 + 1) * 65536 / 65536 = n / 65536 + 1 := by omega
        obtain ⟨rest, hrest⟩ := ih (n := (n / 65536 + 1) * 65536) (.inr (by omega)) (by omega)
          (fun h hh => by rw [put, if_neg (by omega)]; exact hempty h (by omega)) hrun'
        rw [hblock] at hrest
        exact ⟨rest, by rw [hrest]; rfl⟩
      · have hzero : (n + 0x10000) % 2 ^ 32 &&& 0xffff0000 = 0 := by
          rw [and_high _ (Nat.mod_lt _ (by decide))]
          omega
        rw [hzero] at hrun
        obtain ⟨⟨visited', result'⟩, hrun', heq⟩ := Option.map_eq_some_iff.mp hrun
        cases heq
        have hone : 65536 - (n / 65536 + 1) = 0 := by omega
        rw [hone]
        cases fuel with
        | zero => cases hrun'
        | succ fuel =>
            rw [addVisits, if_pos (Nat.zero_le _)] at hrun'
            dsimp only at hrun'
            split at hrun'
            · cases hrun'
              exact ⟨[], rfl⟩
            · obtain ⟨⟨rest, result''⟩, -, heq⟩ := Option.map_eq_some_iff.mp hrun'
              cases heq
              exact ⟨rest, rfl⟩

theorem addEnds_iff : AddEnds line ↔ line.stop < 0xffff0000 := by
  have hordered := line.ordered
  have hlast := line.bounded
  have hblocks : line.start / 65536 ≤ line.stop / 65536 := Nat.div_le_div_right hordered
  constructor
  · intro h
    by_contra hhigh
    obtain ⟨fuel, visited, result, hrun, hresult⟩ := h fun _ => none
    obtain ⟨rest, rfl⟩ := addVisits_round (by omega) (.inl rfl) (by omega) (fun _ _ => rfl) hrun
    obtain ⟨hnodup, hmeets⟩ : (List.range' (line.start / 65536) (65536 - line.start / 65536) ++ 0 :: rest).Nodup ∧
        ∀ h ∈ List.range' (line.start / 65536) (65536 - line.start / 65536) ++ 0 :: rest, Meets line.start line.stop h := by
      cases result with
      | ok _ => exact ⟨hresult.1, fun h hh => (hresult.2 h).mp hh⟩
      | error _ => exact hresult
    have hzero := (meets_iff hordered).mp (hmeets 0 (by simp))
    have hfirst : line.start / 65536 = 0 := by omega
    rw [hfirst] at hnodup
    exact (List.nodup_append.mp hnodup).2.2 0 (by simp) 0 (by simp) rfl
  · intro hstop low
    obtain ⟨k, result, hrun, hresult⟩ := addVisits_up (line.stop / 65536 + 2) hstop (.inl rfl) (by omega) (by omega) low
    refine ⟨_, _, result, hrun, ?_⟩
    cases result with
    | ok _ =>
        dsimp only at hresult ⊢
        rw [hresult]
        exact eachOnce_range hordered
    | error _ =>
        dsimp only at hresult ⊢
        refine ⟨List.nodup_range', fun h hh => ?_⟩
        rw [meets_iff hordered]
        rw [List.mem_range'_1] at hh
        omega

-- The piece of the addresses from start to stop in a block
def clip (start stop h : ℕ) : ℕ × ℕ :=
  (if h = start / 65536 then start % 65536 else 0, if h = stop / 65536 then stop % 65536 else 65535)

-- The array of a block without the piece
def cleared (start stop : ℕ) (low : Low V) (h : ℕ) : Option (List (Range V)) :=
  (low h).map fun a => (erase (clip start stop h).1 (clip start stop h).2 a).1

section Delete

variable (hsame : n % 65536 = start % 65536)

include hsame

theorem clip_eq (hle : n ≤ stop) :
    (if n = start then n &&& 0xffff else 0) = (clip start stop (n / 65536)).1 ∧
      (if stop < n ||| 0xffff then stop &&& 0xffff else 0xffff) = (clip start stop (n / 65536)).2 := by
  rw [clip, and_low, and_low, or_low]
  constructor
  · by_cases hn : n = start
    · rw [if_pos hn, if_pos (by rw [hn]), hn]
    · rw [if_neg hn, if_neg (by omega)]
  · by_cases hlast : n / 65536 = stop / 65536
    · rw [if_pos hlast]
      by_cases hfull : stop < n / 65536 * 65536 + 65535
      · rw [if_pos hfull]
      · rw [if_neg hfull]
        omega
    · rw [if_neg hlast, if_neg (by omega)]

-- The blocks are come to one after the other when the last piece is not stepped over.
theorem deleteRange_up (fuel : ℕ) (hstop : stop < 0xffff0000) (hlow : start % 65536 ≤ stop % 65536) (hfrom : start ≤ n)
    (hnext : n / 65536 ≤ stop / 65536 + 1) (hfuel : stop / 65536 + 2 ≤ n / 65536 + fuel) (low : Low V) (warn : Bool) :
    ∃ low' warn', deleteRange start stop fuel low n warn =
        some (List.range' (n / 65536) (stop / 65536 + 1 - n / 65536), low', warn') ∧
      ∀ k, low' k = if n / 65536 ≤ k ∧ k ≤ stop / 65536 then cleared start stop low k else low k := by
  induction fuel generalizing low n warn with
  | zero => omega
  | succ fuel ih =>
      rw [deleteRange]
      by_cases hle : n ≤ stop
      · obtain ⟨hs, he⟩ := clip_eq hsame hle
        have hadd : (n + 0x10000) % 2 ^ 32 = n + 0x10000 := by omega
        have hblock : (n + 0x10000) / 65536 = n / 65536 + 1 := by omega
        rw [if_pos hle]
        dsimp only
        rw [hs, he, hadd, shift_high]
        have hcount : stop / 65536 + 1 - n / 65536 = stop / 65536 + 1 - (n / 65536 + 1) + 1 := by omega
        rw [hcount, List.range'_succ]
        cases harray : low (n / 65536) with
        | none =>
            obtain ⟨low', warn', hrun, hlow'⟩ := ih (n := n + 0x10000) (by omega) (by omega) (by omega) (by omega) low true
            rw [hblock] at hrun hlow'
            refine ⟨low', warn', by dsimp only; rw [hrun, Option.map_some], fun k => ?_⟩
            rw [hlow' k]
            by_cases hk : k = n / 65536
            · rw [hk, if_neg (by omega), if_pos (by omega), cleared, harray, Option.map_none]
            · exact if_congr (by omega) rfl rfl
        | some a =>
            dsimp only
            obtain ⟨low', warn', hrun, hlow'⟩ := ih (n := n + 0x10000) (by omega) (by omega) (by omega) (by omega)
              (put low (n / 65536) (erase (clip start stop (n / 65536)).1 (clip start stop (n / 65536)).2 a).1)
              (warn || (erase (clip start stop (n / 65536)).1 (clip start stop (n / 65536)).2 a).2)
            rw [hblock] at hrun hlow'
            refine ⟨low', warn', by rw [hrun, Option.map_some], fun k => ?_⟩
            rw [hlow' k]
            by_cases hk : k = n / 65536
            · rw [hk, if_neg (by omega), if_pos (by omega), put, if_pos rfl, cleared, harray, Option.map_some]
            · rw [cleared, put, if_neg hk]
              exact if_congr (by omega) rfl rfl
      · rw [if_neg hle]
        have hcount : stop / 65536 + 1 - n / 65536 = 0 := by omega
        rw [hcount]
        exact ⟨low, warn, rfl, fun k => (if_neg (by omega)).symm⟩

-- Every block is come to at the place that the first address has in its own, and the others are left as they are.
theorem deleteRange_visited (hrun : deleteRange start stop fuel low n warn = some (visited, low', warn')) :
    (∀ h ∈ visited, h * 65536 + start % 65536 ≤ stop) ∧ ∀ h, h ∉ visited → low' h = low h := by
  induction fuel generalizing low n warn visited with
  | zero => cases hrun
  | succ fuel ih =>
      rw [deleteRange] at hrun
      by_cases hle : n ≤ stop
      · rw [if_pos hle] at hrun
        dsimp only at hrun
        rw [shift_high] at hrun
        have hnext : (n + 0x10000) % 2 ^ 32 % 65536 = start % 65536 := by omega
        obtain ⟨⟨rest, low'', warn''⟩, hrest, heq⟩ := Option.map_eq_some_iff.mp hrun
        cases heq
        split at hrest
        · obtain ⟨hhere, hframe⟩ := ih hnext hrest
          refine ⟨List.forall_mem_cons.mpr ⟨by omega, hhere⟩, fun h hh => ?_⟩
          exact hframe h fun hmem => hh (List.mem_cons_of_mem _ hmem)
        · obtain ⟨hhere, hframe⟩ := ih hnext hrest
          refine ⟨List.forall_mem_cons.mpr ⟨by omega, hhere⟩, fun h hh => ?_⟩
          rw [hframe h fun hmem => hh (List.mem_cons_of_mem _ hmem), put,
            if_neg fun heq : h = n / 65536 => hh (heq ▸ List.mem_cons_self)]
      · rw [if_neg hle] at hrun
        cases hrun
        exact ⟨by simp, fun h _ => rfl⟩

theorem deleteRange_endless (hstop : 0xffff0000 ≤ stop) (hlow : start % 65536 ≤ stop % 65536) (hbound : n < 2 ^ 32)
    (fuel : ℕ) (low : Low V) (warn : Bool) : deleteRange start stop fuel low n warn = none := by
  induction fuel generalizing low n warn with
  | zero => rfl
  | succ fuel ih =>
      have hnext : (n + 0x10000) % 2 ^ 32 % 65536 = start % 65536 := by omega
      rw [deleteRange, if_pos (by omega)]
      dsimp only
      split
      · rw [ih hnext (by omega), Option.map_none]
      · rw [ih hnext (by omega), Option.map_none]

end Delete

theorem deleteEnds_iff (hle : start ≤ stop) (hbound : stop < 2 ^ 32) :
    DeleteEnds V start stop ↔ stop < 0xffff0000 ∧ start % 65536 ≤ stop % 65536 := by
  have hblocks : start / 65536 ≤ stop / 65536 := Nat.div_le_div_right hle
  constructor
  · intro h
    obtain ⟨fuel, visited, low', warn, hrun, -, hvisited⟩ := h fun _ => none
    obtain ⟨hhere, -⟩ := deleteRange_visited rfl hrun
    have hlast := hhere (stop / 65536) ((hvisited _).mpr ((meets_iff hle).mpr (by omega)))
    have hlow : start % 65536 ≤ stop % 65536 := by omega
    refine ⟨?_, hlow⟩
    by_contra hhigh
    rw [deleteRange_endless rfl (by omega) hlow (by omega)] at hrun
    cases hrun
  · rintro ⟨hstop, hlow⟩ low
    obtain ⟨low', warn, hrun, -⟩ := deleteRange_up rfl (stop / 65536 + 2) hstop hlow (Nat.le_refl start)
      (by omega) (by omega) low false
    exact ⟨_, _, low', warn, hrun, eachOnce_range hle⟩

-- Both loops, for the two addresses of a line
theorem range_loops_end_iff (line : Line V) :
    AddEnds line ∧ DeleteEnds V line.start line.stop ↔
      line.stop < 0xffff0000 ∧ line.start % 65536 ≤ line.stop % 65536 := by
  rw [addEnds_iff, deleteEnds_iff line.ordered line.bounded]
  constructor
  · exact fun h => h.2
  · exact fun h => ⟨h.1, h⟩

-- 255.255.0.0-255.255.255.255 is never done with; of 10.0.0.128-10.1.0.5 the second block is stepped over.
def lastBlock : Line ℕ := ⟨0xffff0000, 0xffffffff, 1, by decide, by decide⟩

def unaligned : Line ℕ := ⟨0x0a000080, 0x0a010005, 1, by decide, by decide⟩

theorem last_block_endless :
    ¬AddEnds lastBlock ∧ ¬DeleteEnds ℕ lastBlock.start lastBlock.stop ∧
      AddEnds unaligned ∧ ¬DeleteEnds ℕ unaligned.start unaligned.stop := by
  rw [addEnds_iff, addEnds_iff, deleteEnds_iff lastBlock.ordered lastBlock.bounded,
    deleteEnds_iff unaligned.ordered unaligned.bounded]
  decide

end Nginx.Geo
