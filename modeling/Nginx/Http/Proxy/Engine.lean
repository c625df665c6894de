import Nginx.Http.Proxy.Merge

namespace Nginx.Proxy

open ComplexValue (text)

def reading (conf : Script.Conf) (v : Vars) (index : Nat) : Bytes := (getVariable conf v index).1

def readsInternal (conf : Script.Conf) : Script.Code → Bool
  | .copyVar index => conf.variableIndex internalName == some index
  | _ => false

-- The variables once the codes have been run
def touched (conf : Script.Conf) (codes : List Script.Code) (v : Vars) : Vars :=
  if codes.any (readsInternal conf) then { v with cached := some v.internal } else v

-- What the lengths of the captures are too large by
def slack (r : Request) (le : Flags) (codes : List Script.Code) : Nat :=
  (codes.map fun
    | .copyCapture n => if le.escapes r then 2 * escapeCount .args (r.captures.text n) else 0
    | _ => 0).sum

def groupSize (r : Request) (le : Flags) (value : Nat → Bytes) (codes : List Script.Code) : Nat :=
  (codes.flatMap (text value r.captures)).length + slack r le codes

-- What a code writes; that of a capture does not look at skip.
def written (r : Request) (skip : Bool) (value : Nat → Bytes) : Script.Code → Bytes
  | .copyCapture n => r.captures.text n
  | code => if skip then [] else text value r.captures code

-- The skip for the codes behind a name
def skipOf (r : Request) (le : Flags) (value : Nat → Bytes) (codes : List Script.Code) : Bool :=
  codes ≠ [] && groupSize r le value codes == 2

def groupText (r : Request) (le : Flags) (value : Nat → Bytes) : List Script.Code → Bytes
  | [] => []
  | name :: codes => (name :: codes).flatMap (written r (skipOf r le value codes) value)

-- The skip that is left behind the headers
def lastSkip (r : Request) (le : Flags) (value : Nat → Bytes) (groups : List (List Script.Code)) (skip : Bool) : Bool :=
  groups.foldl (fun skip group =>
    match group with
    | [] => skip
    | _ :: codes => skipOf r le value codes) skip

variable {conf : Script.Conf} {r : Request} {le : Flags} {v : Vars} {value : Nat → Bytes} {codes : List Script.Code}

theorem getVariable_touched (v : Vars) (index : Nat) :
    (getVariable conf v index).2 = touched conf [.copyVar index] v := by
  by_cases h : conf.variableIndex internalName = some index
  · simp [getVariable, touched, readsInternal, h]
  · simp [getVariable, touched, readsInternal, h]

theorem reading_touched (codes : List Script.Code) (v : Vars) : reading conf (touched conf codes v) = reading conf v := by
  unfold touched
  split
  · funext index
    unfold reading getVariable
    split <;> rfl
  · rfl

theorem touched_cons (code : Script.Code) (codes : List Script.Code) (v : Vars) :
    touched conf codes (touched conf [code] v) = touched conf (code :: codes) v := by
  cases hone : readsInternal conf code <;> cases hrest : codes.any (readsInternal conf) <;>
    simp [touched, hone, hrest, Vars.internal]

theorem slack_cons (code : Script.Code) (codes : List Script.Code) :
    slack r le (code :: codes) = slack r le [code] + slack r le codes := by
  simp [slack]

theorem groupSize_cons (code : Script.Code) (codes : List Script.Code) :
    groupSize r le value (code :: codes) = groupSize r le value [code] + groupSize r le value codes := by
  simp only [groupSize, List.flatMap_cons, List.flatMap_nil, List.append_nil, List.length_append,
    slack_cons code codes]
  omega

theorem lengthCode_spec {code : Script.Code} (hno : code ≠ .startArgs) :
    lengthCode conf r le v (lengthOf code) = (groupSize r le (reading conf v) [code], le, touched conf [code] v) := by
  cases code with
  | copy t => simp [lengthCode, lengthOf, groupSize, slack, text, touched, readsInternal]
  | copyVar index =>
      simp only [lengthCode, lengthOf, groupSize, slack, getVariable_touched]
      simp [text, reading]
  | startArgs => exact absurd rfl hno
  | copyCapture n =>
      simp [lengthCode, lengthOf, groupSize, slack, text, touched, readsInternal, Script.Captures.text_length]

theorem runLengths_cons (code : Script.Code) (ip : List LengthCode) (le : Flags) (v : Vars) :
    runLengths conf r (lengthOf code :: ip) le v =
      ((lengthCode conf r le v (lengthOf code)).1 + (runLengths conf r ip (lengthCode conf r le v (lengthOf code)).2.1
          (lengthCode conf r le v (lengthOf code)).2.2).1,
        (runLengths conf r ip (lengthCode conf r le v (lengthOf code)).2.1
          (lengthCode conf r le v (lengthOf code)).2.2).2) := by
  cases code <;> rfl

theorem sumLengths_cons (code : Script.Code) (inside : Bool) (ip : List LengthCode) (le : Flags) (v : Vars) :
    sumLengths conf r inside (lengthOf code :: ip) le v =
      ((lengthCode conf r le v (lengthOf code)).1 +
          (sumLengths conf r true ip (lengthCode conf r le v (lengthOf code)).2.1
            (lengthCode conf r le v (lengthOf code)).2.2).1,
        (sumLengths conf r true ip (lengthCode conf r le v (lengthOf code)).2.1
          (lengthCode conf r le v (lengthOf code)).2.2).2) := by
  cases code <;> cases inside <;> rfl

variable (conf r le) in
-- The codes of one value, in front of the rest of the stream
theorem runLengths_codes (hno : .startArgs ∉ codes) (ip : List LengthCode) (v : Vars) :
    runLengths conf r (codes.map lengthOf ++ .null :: ip) le v =
      (groupSize r le (reading conf v) codes, .null :: ip, le, touched conf codes v) := by
  induction codes generalizing v with
  | nil => rfl
  | cons code codes ih =>
      rw [List.mem_cons, not_or] at hno
      rw [List.map_cons, List.cons_append, runLengths_cons, lengthCode_spec (Ne.symm hno.1), ih hno.2, reading_touched,
        touched_cons, ← groupSize_cons]

theorem sumLengths_codes (hno : .startArgs ∉ codes) (ip : List LengthCode) (v : Vars) :
    sumLengths conf r true (codes.map lengthOf ++ .null :: ip) le v =
      (groupSize r le (reading conf v) codes + (sumLengths conf r false ip le (touched conf codes v)).1,
        (sumLengths conf r false ip le (touched conf codes v)).2) := by
  induction codes generalizing v with
  | nil => simp [sumLengths, groupSize, slack, touched]
  | cons code codes ih =>
      rw [List.mem_cons, not_or] at hno
      rw [List.map_cons, List.cons_append, sumLengths_cons, lengthCode_spec (Ne.symm hno.1), ih hno.2, reading_touched,
        touched_cons, groupSize_cons code codes, Nat.add_assoc]

variable (conf r le) in
theorem sumLengths_groups {groups : List (List Script.Code)} (hno : ∀ group ∈ groups, .startArgs ∉ group) (v : Vars) :
    ∃ v', reading conf v' = reading conf v ∧
      sumLengths conf r false (groups.flatMap groupLengths ++ [.null]) le v =
        ((groups.map (groupSize r le (reading conf v))).sum, le, v') := by
  induction groups generalizing v with
  | nil => exact ⟨v, rfl, rfl⟩
  | cons group groups ih =>
      have hrest := fun g hg => hno g (List.mem_cons_of_mem _ hg)
      cases group with
      | nil =>
          obtain ⟨v', hv, hsum⟩ := ih hrest v
          refine ⟨v', hv, ?_⟩
          simpa [groupLengths, groupSize, slack] using hsum
      | cons code codes =>
          have hcodes := hno _ List.mem_cons_self
          rw [List.mem_cons, not_or] at hcodes
          obtain ⟨v', hv, hsum⟩ := ih hrest (touched conf (code :: codes) v)
          rw [reading_touched] at hv hsum
          refine ⟨v', hv, ?_⟩
          simp only [List.flatMap_cons, groupLengths, List.cons_ne_nil, if_false, List.map_cons, List.cons_append,
            List.append_assoc, List.nil_append]
          rw [sumLengths_cons, lengthCode_spec (Ne.symm hcodes.1), sumLengths_codes hcodes.2, touched_cons, reading_touched,
            hsum, List.sum_cons, groupSize_cons code codes, Nat.add_assoc]

variable (conf r) in
theorem valueCode_spec {code : Script.Code} {e : Engine} (hno : code ≠ .startArgs) (hflags : e.flags = ⟨false, false⟩)
    (v : Vars) : ∃ v', reading conf v' = reading conf v ∧
      valueCode conf r e v code = ({ e with pos := e.pos ++ written r e.skip (reading conf v) code }, v') := by
  cases code with
  | copy t =>
      refine ⟨v, rfl, ?_⟩
      obtain ⟨flags, skip, pos⟩ := e
      cases skip <;> simp [valueCode, written, text]
  | copyVar index =>
      obtain ⟨flags, skip, pos⟩ := e
      cases skip with
      | true => exact ⟨v, rfl, by simp [valueCode, written]⟩
      | false =>
          refine ⟨touched conf [.copyVar index] v, reading_touched _ v, ?_⟩
          simp only [valueCode, written, getVariable_touched]
          rfl
  | startArgs => exact absurd rfl hno
  | copyCapture n =>
      refine ⟨v, rfl, ?_⟩
      simp [valueCode, written, hflags, Flags.escapes]

variable (conf r) in
theorem runValues_codes {e : Engine} (hno : .startArgs ∉ codes) (hflags : e.flags = ⟨false, false⟩)
    (values : List ValueCode) (v : Vars) : ∃ v', reading conf v' = reading conf v ∧
      runValues conf r (codes.map .code ++ .null :: values) e v =
        (.null :: values, { e with pos := e.pos ++ codes.flatMap (written r e.skip (reading conf v)) }, v') := by
  induction codes generalizing e v with
  | nil => exact ⟨v, rfl, by simp [runValues]⟩
  | cons code codes ih =>
      rw [List.mem_cons, not_or] at hno
      obtain ⟨v₁, hv₁, hcode⟩ := valueCode_spec conf r (Ne.symm hno.1) hflags v
      obtain ⟨v₂, hv₂, hrun⟩ := ih (e := { e with pos := e.pos ++ written r e.skip (reading conf v) code }) hno.2 hflags v₁
      refine ⟨v₂, hv₂.trans hv₁, ?_⟩
      rw [List.map_cons, List.cons_append, runValues, hcode]
      dsimp only
      rw [hrun, hv₁, List.flatMap_cons, List.append_assoc]

variable (conf r le) in
theorem skipHeader_codes (hno : .startArgs ∉ codes) (ip : List LengthCode) (v : Vars) :
    ∃ v', reading conf v' = reading conf v ∧
      skipHeader conf r (codes.map lengthOf ++ .null :: ip) le v =
        (skipOf r le (reading conf v) codes, .null :: ip, le, v') := by
  cases codes with
  | nil => exact ⟨v, rfl, rfl⟩
  | cons code codes =>
      refine ⟨touched conf (code :: codes) v, reading_touched _ v, ?_⟩
      have hrun := runLengths_codes conf r le hno ip v
      have hskip : skipHeader conf r ((code :: codes).map lengthOf ++ .null :: ip) le v =
          ((runLengths conf r ((code :: codes).map lengthOf ++ .null :: ip) le v).1 == 2,
            (runLengths conf r ((code :: codes).map lengthOf ++ .null :: ip) le v).2) := by
        cases code <;> rfl
      rw [hskip, hrun]
      simp [skipOf]

variable (conf r le) in
theorem writeHeaders_groups {groups : List (List Script.Code)} (hno : ∀ group ∈ groups, .startArgs ∉ group) {fuel : Nat}
    (hfuel : (groups.flatMap groupLengths).length ≤ fuel) {e : Engine} (hflags : e.flags = ⟨false, false⟩) (v : Vars) :
    ∃ v', reading conf v' = reading conf v ∧
      writeHeaders conf r fuel (groups.flatMap groupLengths ++ [.null]) (groups.flatMap groupValues) le e v =
        ({ e with
            skip := lastSkip r le (reading conf v) groups e.skip
            pos := e.pos ++ groups.flatMap (groupText r le (reading conf v)) }, le, v') := by
  induction groups generalizing fuel e v with
  | nil =>
      refine ⟨v, rfl, ?_⟩
      cases fuel <;> simp [writeHeaders, lastSkip]
  | cons group groups ih =>
      have hrest := fun g hg => hno g (List.mem_cons_of_mem _ hg)
      cases group with
      | nil =>
          obtain ⟨v', hv, hrun⟩ := ih hrest (by simpa [groupLengths] using hfuel) hflags v
          exact ⟨v', hv, hrun⟩
      | cons name codes =>
          have hcodes := hno _ List.mem_cons_self
          have hname := hcodes
          rw [List.mem_cons, not_or] at hname
          obtain ⟨fuel, rfl⟩ : ∃ n, fuel = n + 1 := ⟨fuel - 1, by
            simp only [List.flatMap_cons, groupLengths, List.cons_ne_nil, if_false, List.length_append, List.length_map,
              List.length_cons] at hfuel
            omega⟩
          have hfuel' : (groups.flatMap groupLengths).length ≤ fuel := by
            simp only [List.flatMap_cons, groupLengths, List.cons_ne_nil, if_false, List.length_append, List.length_map,
              List.length_cons] at hfuel
            omega
          obtain ⟨v₁, hv₁, hskip⟩ := skipHeader_codes conf r le hname.2
            (groups.flatMap groupLengths ++ [.null]) (touched conf [name] v)
          rw [reading_touched] at hv₁ hskip
          obtain ⟨v₂, hv₂, hrun⟩ := runValues_codes conf r
            (e := { e with skip := skipOf r le (reading conf v) codes }) hcodes hflags (groups.flatMap groupValues) v₁
          rw [hv₁] at hv₂ hrun
          obtain ⟨v₃, hv₃, hmore⟩ := ih (e := { e with
            skip := skipOf r le (reading conf v) codes
            pos := e.pos ++ groupText r le (reading conf v) (name :: codes) }) hrest hfuel' hflags v₂
          rw [hv₂] at hv₃ hmore
          refine ⟨v₃, hv₃, ?_⟩
          have hnull : lengthOf name ≠ .null := by cases name <;> exact fun h => by cases h
          simp only [List.flatMap_cons, groupLengths, groupValues, List.cons_ne_nil, if_false, List.map_cons,
            List.cons_append, List.append_assoc, List.nil_append] at hrun ⊢
          rw [writeHeaders, if_neg hnull, lengthCode_spec (Ne.symm hname.1)]
          dsimp only
          rw [hskip]
          dsimp only
          rw [hrun]
          dsimp only [List.tail_cons]
          refine hmore.trans ?_
          simp [lastSkip, groupText]

end Nginx.Proxy
