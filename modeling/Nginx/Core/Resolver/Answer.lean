import Nginx.Core.Resolver.Errors

namespace Nginx.Core.Resolver

open ByteMemory
open DomainName (eitherBit)

variable {r : Resolver} {m : Allocs} {buf : Memory} {last nan i j turns fuel naddrs n : Nat}
  {reads seen : List Nat} {an : Record} {ans : List Record}

variable (buf last) in
theorem skipName_reads (turns i : Nat) : ∀ o ∈ (skipName buf last turns i).2, o < last := by
  induction turns generalizing i with
  | zero => simp [skipName]
  | succ turns ih =>
      intro o ho
      rw [skipName] at ho
      by_cases hi : i < last
      · rw [if_pos hi] at ho
        split at ho
        · rw [List.mem_singleton.mp ho]
          exact hi
        split at ho
        · rw [List.mem_singleton.mp ho]
          exact hi
        cases List.mem_cons.mp ho with
        | inl h => omega
        | inr h => exact ih _ o h
      · rw [if_neg hi] at ho
        exact absurd ho List.not_mem_nil

-- A name that the first pass gets over the second gets over too, to the same offset.
theorem passName_skipName (h : skipName buf last turns i = (.pointer j, reads) ∨ skipName buf last turns i = (.root j, reads))
    (hf : turns ≤ fuel) : passName buf fuel i = some (j, reads) := by
  induction turns generalizing i fuel reads with
  | zero => obtain h | h := h <;> cases h
  | succ turns ih =>
      obtain ⟨fuel, rfl⟩ : ∃ f, fuel = f + 1 := ⟨fuel - 1, by omega⟩
      rw [skipName] at h
      rw [passName]
      by_cases hi : i < last
      · rw [if_pos hi] at h
        by_cases hp : (buf i).toNat &&& 0xc0 ≠ 0
        · rw [if_pos hp] at h ⊢
          obtain h | h := h <;> cases h
          rfl
        rw [if_neg hp] at h ⊢
        by_cases h0 : buf i = 0
        · rw [if_pos h0] at h ⊢
          obtain h | h := h <;> cases h
          rfl
        rw [if_neg h0] at h ⊢
        cases hs : skipName buf last turns (i + 1 + (buf i).toNat) with
        | mk s rest =>
        rw [hs] at h
        obtain h | h := h <;> cases h
        · rw [ih (.inl hs) (by omega)]
          rfl
        · rw [ih (.inr hs) (by omega)]
          rfl
      · rw [if_neg hi] at h
        obtain h | h := h <;> cases h

variable (buf last) in
theorem parseRecord_reads (i : Nat) : ∀ o ∈ (parseRecord buf last i).2, o < last := by
  intro o ho
  have hname := skipName_reads buf last (last - i) i
  have hheader : ∀ j, ¬ last ≤ j + 10 → ∀ o ∈ headerReads j, o < last := by
    intro j hj o ho
    simp only [headerReads, List.mem_cons, List.not_mem_nil, or_false] at ho
    omega
  rw [parseRecord] at ho
  cases hs : skipName buf last (last - i) i with
  | mk s reads =>
  rw [hs] at hname ho
  cases s with
  | short => exact hname o ho
  | pointer j =>
      dsimp only at ho
      split at ho
      · exact hname o ho
      · rename_i hj
        exact (List.mem_append.mp ho).elim (hname o) (hheader j hj o)
  | root j =>
      dsimp only at ho
      split at ho
      · exact hname o ho
      split at ho
      · exact hname o ho
      · rename_i hj
        exact (List.mem_append.mp ho).elim (hname o) (hheader j hj o)

-- A record that the first pass decodes lies in the response up to its data, and the second
-- pass decodes it from the same start as the same record.
theorem parseRecord_record (h : (parseRecord buf last i).1 = .record an) :
    an.start = i ∧ an.data < last ∧
      ∃ reads, (∀ fuel, last ≤ fuel → passName buf fuel i = some (an.header, reads)) ∧ Record.read buf i an.header = an ∧
        (parseRecord buf last i).2 = reads ++ headerReads an.header := by
  rw [parseRecord] at h ⊢
  cases hs : skipName buf last (last - i) i with
  | mk s reads =>
  rw [hs] at h
  cases s with
  | short => cases h
  | pointer j =>
      dsimp only at h ⊢
      by_cases hj : last ≤ j + 10
      · rw [if_pos hj] at h
        cases h
      · rw [if_neg hj] at h ⊢
        cases h
        exact ⟨rfl, Nat.lt_of_not_le hj, reads, fun fuel hf => passName_skipName (.inl hs) (by omega), rfl, rfl⟩
  | root j =>
      dsimp only at h ⊢
      by_cases h2 : j - i < 2
      · rw [if_pos h2] at h
        cases h
      rw [if_neg h2] at h ⊢
      by_cases hj : last ≤ j + 10
      · rw [if_pos hj] at h
        cases h
      · rw [if_neg hj] at h ⊢
        cases h
        exact ⟨rfl, Nat.lt_of_not_le hj, reads, fun fuel hf => passName_skipName (.inr hs) (by omega), rfl, rfl⟩

-- The types whose data the first pass steps over.
def Record.known (an : Record) : Prop := an.qtype = 1 ∨ an.qtype = 5 ∨ an.qtype = 39

instance (an : Record) : Decidable an.known := inferInstanceAs (Decidable (_ ∨ _ ∨ _))

-- Where the first pass looks for the next record.
def Record.following (an : Record) : Nat := if an.known then an.data + an.len else an.header

-- The records of the answer section as the first pass reads them, up to one that does not fit.
def answers (buf : Memory) (last : Nat) : Nat → Nat → List Record
  | 0, _ => []
  | nan + 1, i =>
      match (parseRecord buf last i).1 with
      | .record an =>
          if an.qtype = 1 ∧ last < an.data + an.len then [] else an :: answers buf last nan an.following
      | _ => []

def countA (ans : List Record) : Nat := ans.countP fun an => an.qtype = 1

def lastCname (c : Option Nat) (ans : List Record) : Option Nat :=
  ans.foldl (fun c an => if an.qtype = 5 then some an.data else c) c

def AddressesInside (last : Nat) (ans : List Record) : Prop := ∀ an ∈ ans, an.qtype = 1 → an.data + 4 ≤ last

-- No record of an unknown type stands in front of an address.
def Aligned : List Record → Prop
  | [] => True
  | an :: ans => (an.known ∨ countA ans = 0) ∧ Aligned ans

-- The counters after a record, and what is read of its data.
def Counted.after (c : Counted) (buf : Memory) (an : Record) : Counted where
  naddrs := if an.qtype = 1 then c.naddrs + 1 else c.naddrs
  addr := if an.qtype = 1 then load buf an.data 4 else c.addr
  cname := if an.qtype = 5 then some an.data else c.cname
  qtype := an.qtype

def dataReads (an : Record) : List Nat := if an.qtype = 1 then addrReads an else []

theorem firstPass_record {c : Counted} (h : parseRecord buf last i = (.record an, reads)) :
    firstPass buf last (nan + 1) i c =
      if an.qtype = 1 ∧ last < an.data + an.len then (.short, [an], reads)
      else
        let rest := firstPass buf last nan an.following (c.after buf an)
        (rest.1, an :: rest.2.1, reads ++ dataReads an ++ rest.2.2) := by
  rw [firstPass, h]
  dsimp only
  by_cases h1 : an.qtype = 1
  · have hknown : an.known := .inl h1
    by_cases hshort : last < an.data + an.len
    · simp [h1, hshort]
    · simp [h1, hshort, Record.following, hknown, Counted.after, dataReads]
  by_cases h5 : an.qtype = 5
  · have hknown : an.known := .inr (.inl h5)
    simp [h5, Record.following, hknown, Counted.after, dataReads]
  by_cases h39 : an.qtype = 39
  · have hknown : an.known := .inr (.inr h39)
    simp [h39, Record.following, hknown, Counted.after, dataReads]
  · have hknown : ¬ an.known := fun h => h.elim h1 fun h => h.elim h5 h39
    simp [h1, h5, h39, Record.following, hknown, Counted.after, dataReads]

theorem answers_record (h : (parseRecord buf last i).1 = .record an) :
    answers buf last (nan + 1) i =
      if an.qtype = 1 ∧ last < an.data + an.len then [] else an :: answers buf last nan an.following := by
  rw [answers, h]

theorem countA_cons (an : Record) (ans : List Record) :
    countA (an :: ans) = (if an.qtype = 1 then 1 else 0) + countA ans := by
  rw [countA, countA, List.countP_cons]
  by_cases h : an.qtype = 1 <;> simp [h, Nat.add_comm]

theorem dataReads_inside :
    (∀ o ∈ dataReads an, o < last) ↔ (an.qtype = 1 → an.data + 4 ≤ last) := by
  by_cases h1 : an.qtype = 1
  · simp only [dataReads, h1, if_true, addrReads, List.mem_cons, List.not_mem_nil, or_false, forall_eq_or_imp,
      forall_eq, forall_const]
    omega
  · simp [dataReads, h1]

theorem mem_append_all {P : Nat → Prop} {xs ys : List Nat} :
    (∀ o ∈ xs ++ ys, P o) ↔ (∀ o ∈ xs, P o) ∧ ∀ o ∈ ys, P o := List.forall_mem_append

-- The first pass: what it reads, and what it knows when all records fit.
theorem firstPass_spec (nan i : Nat) (c : Counted) :
    ((∀ o ∈ (firstPass buf last nan i c).2.2, o < last) ↔ AddressesInside last (answers buf last nan i)) ∧
      ((answers buf last nan i).length = nan → ∃ s, (firstPass buf last nan i c).1 = .counted s ∧
        (firstPass buf last nan i c).2.1 = answers buf last nan i ∧
        s.naddrs = c.naddrs + countA (answers buf last nan i) ∧
        s.cname = lastCname c.cname (answers buf last nan i)) ∧
      ((answers buf last nan i).length ≠ nan →
        (firstPass buf last nan i c).1 = .short ∨ (firstPass buf last nan i c).1 = .invalid) := by
  induction nan generalizing i c with
  | zero =>
      refine ⟨by simp [firstPass, answers, AddressesInside], fun _ => ⟨c, rfl, rfl, rfl, rfl⟩, fun h => absurd rfl h⟩
  | succ nan ih =>
      have hreads := parseRecord_reads buf last i
      cases hp : parseRecord buf last i with
      | mk e reads =>
      rw [hp] at hreads
      have hfst : (parseRecord buf last i).1 = e := by rw [hp]
      cases e with
      | short =>
          have hnil : answers buf last (nan + 1) i = [] := by simp [answers, hfst]
          have hpass : firstPass buf last (nan + 1) i c = (.short, [], reads) := by rw [firstPass, hp]
          rw [hnil, hpass]
          refine ⟨⟨fun _ => by simp [AddressesInside], fun _ => hreads⟩, fun h => ?_, fun _ => .inl rfl⟩
          cases h
      | invalid =>
          have hnil : answers buf last (nan + 1) i = [] := by simp [answers, hfst]
          have hpass : firstPass buf last (nan + 1) i c = (.invalid, [], reads) := by rw [firstPass, hp]
          rw [hnil, hpass]
          refine ⟨⟨fun _ => by simp [AddressesInside], fun _ => hreads⟩, fun h => ?_, fun _ => .inr rfl⟩
          cases h
      | record an =>
          have hdata := (parseRecord_record hfst).2.1
          rw [answers_record hfst, firstPass_record hp]
          by_cases hshort : an.qtype = 1 ∧ last < an.data + an.len
          · rw [if_pos hshort, if_pos hshort]
            refine ⟨⟨fun _ => by simp [AddressesInside], fun _ => hreads⟩, fun h => ?_, fun _ => .inl rfl⟩
            cases h
          rw [if_neg hshort, if_neg hshort]
          dsimp only
          obtain ⟨hrest, hall, hpart⟩ := ih an.following (c.after buf an)
          refine ⟨?_, fun h => ?_, fun h => hpart (by simpa using h)⟩
          · rw [mem_append_all, mem_append_all, hrest, dataReads_inside, AddressesInside, AddressesInside,
              List.forall_mem_cons]
            exact ⟨fun h => ⟨h.1.2, h.2⟩, fun h => ⟨⟨hreads, h.1⟩, h.2⟩⟩
          · obtain ⟨s, hs, hfirst, hnaddrs, hcname⟩ := hall (by simpa using h)
            refine ⟨s, hs, by rw [hfirst], ?_, ?_⟩
            · rw [hnaddrs, countA_cons, Counted.after]
              dsimp only
              split <;> omega
            · rw [hcname, lastCname, lastCname, List.foldl_cons, Counted.after]

-- One record of the second pass, when the first has decoded it.
theorem secondPass_record (naddrs nan n : Nat) (h : (parseRecord buf last i).1 = .record an) :
    ∃ reads, (∀ o ∈ reads, o < last) ∧ ∀ fuel, last ≤ fuel → secondPass fuel buf naddrs (nan + 1) i n =
      if an.qtype = 1 then
        if n + 1 = naddrs then some ⟨[load buf an.data 4], [an], reads ++ addrReads an⟩
        else (secondPass fuel buf naddrs nan (an.data + an.len) (n + 1)).bind fun s =>
          some ⟨load buf an.data 4 :: s.addrs, an :: s.records, reads ++ addrReads an ++ s.reads⟩
      else (secondPass fuel buf naddrs nan (an.data + an.len) n).bind fun s =>
        some ⟨s.addrs, an :: s.records, reads ++ s.reads⟩ := by
  obtain ⟨_, _, reads, hpass, hread, hall⟩ := parseRecord_record h
  refine ⟨reads ++ headerReads an.header, ?_, fun fuel hf => ?_⟩
  · rw [← hall]
    exact parseRecord_reads buf last i
  · rw [secondPass, hpass fuel hf, Option.bind_eq_bind, Option.bind_some]
    simp only [hread]
    rfl

-- The second pass on records that it reads as the first did.
theorem secondPass_aligned (hlen : (answers buf last nan i).length = nan)
    (hcount : n + countA (answers buf last nan i) = naddrs) (hn : n < naddrs)
    (hal : Aligned (answers buf last nan i)) (hin : AddressesInside last (answers buf last nan i)) :
    ∃ s, (∀ fuel, last ≤ fuel → secondPass fuel buf naddrs nan i n = some s) ∧
      s.records <+: answers buf last nan i ∧ n + s.addrs.length = naddrs ∧ ∀ o ∈ s.reads, o < last := by
  induction nan generalizing i n with
  | zero =>
      rw [answers, countA, List.countP_nil] at hcount
      omega
  | succ nan ih =>
      cases hp : (parseRecord buf last i).1 with
      | short => simp [answers, hp] at hlen
      | invalid => simp [answers, hp] at hlen
      | record an =>
      have hdata := (parseRecord_record hp).2.1
      rw [answers_record hp] at hlen hcount hal hin ⊢
      by_cases hshort : an.qtype = 1 ∧ last < an.data + an.len
      · rw [if_pos hshort] at hlen
        cases hlen
      rw [if_neg hshort] at hlen hcount hal hin ⊢
      rw [countA_cons] at hcount
      rw [List.length_cons, Nat.add_right_cancel_iff] at hlen
      obtain ⟨hknown, hrest⟩ := hal
      obtain ⟨hfirst, hinside⟩ := List.forall_mem_cons.mp hin
      obtain ⟨reads, hreads, hstep⟩ := secondPass_record naddrs nan n hp
      have hdreads := (dataReads_inside).mpr hfirst
      by_cases h1 : an.qtype = 1
      · have hfollow : an.following = an.data + an.len := if_pos (.inl h1)
        rw [dataReads, if_pos h1] at hdreads
        rw [if_pos h1] at hcount
        by_cases hlast : n + 1 = naddrs
        · refine ⟨⟨[load buf an.data 4], [an], reads ++ addrReads an⟩,
            fun fuel hf => by rw [hstep fuel hf, if_pos h1, if_pos hlast], ?_, hlast, ?_⟩
          · exact (List.prefix_cons_inj an).mpr List.nil_prefix
          · exact mem_append_all.mpr ⟨hreads, hdreads⟩
        · obtain ⟨s, hrun, hpre, hsize, hs⟩ := ih (n := n + 1) hlen (by omega) (by omega) hrest hinside
          rw [hfollow] at hrun
          refine ⟨⟨load buf an.data 4 :: s.addrs, an :: s.records, reads ++ addrReads an ++ s.reads⟩,
            fun fuel hf => by rw [hstep fuel hf, if_pos h1, if_neg hlast, hrun fuel hf, Option.bind_some], ?_, ?_, ?_⟩
          · exact (List.prefix_cons_inj an).mpr hpre
          · show n + (s.addrs.length + 1) = naddrs
            omega
          · exact mem_append_all.mpr ⟨mem_append_all.mpr ⟨hreads, hdreads⟩, hs⟩
      · rw [if_neg h1, Nat.zero_add] at hcount
        have hk : an.known := hknown.resolve_right (by omega)
        have hfollow : an.following = an.data + an.len := if_pos hk
        obtain ⟨s, hrun, hpre, hsize, hs⟩ := ih hlen hcount hn hrest hinside
        rw [hfollow] at hrun
        refine ⟨⟨s.addrs, an :: s.records, reads ++ s.reads⟩,
          fun fuel hf => by rw [hstep fuel hf, if_neg h1, hrun fuel hf, Option.bind_some], ?_, hsize, ?_⟩
        · exact (List.prefix_cons_inj an).mpr hpre
        · exact mem_append_all.mpr ⟨hreads, hs⟩

theorem aligned_of_none (h : countA ans = 0) : Aligned ans := by
  induction ans with
  | nil => trivial
  | cons an ans ih =>
      rw [countA_cons] at h
      exact ⟨.inr (by omega), ih (by omega)⟩

-- Where the second pass starts, it takes the name of its first record to be.
theorem secondPass_start {s : Stored} (h : secondPass fuel buf naddrs (nan + 1) i n = some s) :
    ∃ an rest, s.records = an :: rest ∧ an.start = i := by
  rw [secondPass, Option.bind_eq_bind, Option.bind_eq_some_iff] at h
  obtain ⟨⟨j, reads⟩, _, h⟩ := h
  dsimp only at h
  split at h
  · split at h
    · cases h
      exact ⟨_, _, rfl, rfl⟩
    · rw [Option.bind_eq_bind, Option.bind_eq_some_iff] at h
      obtain ⟨t, _, h⟩ := h
      cases h
      exact ⟨_, _, rfl, rfl⟩
  · rw [Option.bind_eq_bind, Option.bind_eq_some_iff] at h
    obtain ⟨t, _, h⟩ := h
    cases h
    exact ⟨_, _, rfl, rfl⟩

-- Behind a record of an unknown type the two passes are apart.
theorem secondPass_apart {s : Stored} (hlen : (answers buf last nan i).length = nan)
    (hcount : n + countA (answers buf last nan i) = naddrs) (hn : n < naddrs) (hf : last ≤ fuel)
    (hrun : secondPass fuel buf naddrs nan i n = some s) (hpre : s.records <+: answers buf last nan i) :
    Aligned (answers buf last nan i) := by
  induction nan generalizing i n s with
  | zero => trivial
  | succ nan ih =>
      cases hp : (parseRecord buf last i).1 with
      | short => simp [answers, hp] at hlen
      | invalid => simp [answers, hp] at hlen
      | record an =>
      rw [answers_record hp] at hlen hcount hpre ⊢
      by_cases hshort : an.qtype = 1 ∧ last < an.data + an.len
      · rw [if_pos hshort] at hlen
        cases hlen
      rw [if_neg hshort] at hlen hcount hpre ⊢
      rw [countA_cons] at hcount
      rw [List.length_cons, Nat.add_right_cancel_iff] at hlen
      obtain ⟨reads, _, hstep⟩ := secondPass_record naddrs nan n hp
      rw [hstep fuel hf] at hrun
      by_cases h1 : an.qtype = 1
      · have hfollow : an.following = an.data + an.len := if_pos (.inl h1)
        rw [if_pos h1] at hrun hcount
        refine ⟨.inl (.inl h1), ?_⟩
        by_cases hlast : n + 1 = naddrs
        · exact aligned_of_none (by omega)
        · rw [if_neg hlast, Option.bind_eq_some_iff] at hrun
          obtain ⟨t, hrun, ht⟩ := hrun
          cases ht
          rw [← hfollow] at hrun
          exact ih hlen (by omega) (by omega) hrun ((List.prefix_cons_inj an).mp hpre)
      · rw [if_neg h1, Nat.zero_add] at hcount
        rw [if_neg h1, Option.bind_eq_some_iff] at hrun
        obtain ⟨t, hrun, ht⟩ := hrun
        cases ht
        have hpre := (List.prefix_cons_inj an).mp hpre
        by_cases hk : an.known
        · have hfollow : an.following = an.data + an.len := if_pos hk
          rw [← hfollow] at hrun
          exact ⟨.inl hk, ih hlen hcount hn hrun hpre⟩
        · -- an address is still to come, so both passes go on, from different offsets
          have hfollow : an.following = an.header := if_neg hk
          cases nan with
          | zero =>
              rw [answers, countA, List.countP_nil] at hcount
              omega
          | succ nan =>
              obtain ⟨an', rest, hrecords, hstart⟩ := secondPass_start hrun
              rw [hfollow] at hcount hpre
              cases hp' : (parseRecord buf last an.header).1 with
              | short =>
                  simp only [answers, hp', countA, List.countP_nil] at hcount
                  omega
              | invalid =>
                  simp only [answers, hp', countA, List.countP_nil] at hcount
                  omega
              | record next =>
                  have hnext := (parseRecord_record hp').1
                  rw [answers_record hp'] at hcount hpre
                  by_cases hshort' : next.qtype = 1 ∧ last < next.data + next.len
                  · rw [if_pos hshort', countA, List.countP_nil] at hcount
                    omega
                  rw [if_neg hshort', hrecords] at hpre
                  have heq := (List.cons_prefix_cons.mp hpre).1
                  rw [heq, hnext, Record.data] at hstart
                  omega

-- What the scan of the answers should be: it ends, keeps inside of the response, and its second
-- pass meets records of the first, where it met them, and stores what the first counted.
def ScanFits (last : Nat) (run : Nat → Option Scan) : Prop :=
  ∃ scan, (∃ enough, ∀ fuel, enough ≤ fuel → run fuel = some scan) ∧ (∀ o ∈ scan.reads, o < last) ∧
    ∀ s, scan.second = some s → s.records <+: scan.first ∧ s.addrs.length = scan.naddrs

theorem scanFits_of_run {run : Nat → Option Scan} {scan : Scan} (enough : Nat)
    (h : ∀ fuel, enough ≤ fuel → run fuel = some scan) :
    ScanFits last run ↔ (∀ o ∈ scan.reads, o < last) ∧
      ∀ s, scan.second = some s → s.records <+: scan.first ∧ s.addrs.length = scan.naddrs := by
  constructor
  · rintro ⟨scan', ⟨enough', hrun⟩, hrest⟩
    have heq := Option.some.inj ((hrun _ (Nat.le_max_right enough enough')).symm.trans (h _ (Nat.le_max_left enough enough')))
    subst heq
    exact hrest
  · exact fun hrest => ⟨scan, ⟨enough, h⟩, hrest⟩

theorem ScanFits.congr {run run' : Nat → Option Scan} (enough : Nat) (h : ∀ fuel, enough ≤ fuel → run fuel = run' fuel)
    (hfits : ScanFits last run) : ScanFits last run' := by
  obtain ⟨scan, ⟨enough', hrun⟩, hrest⟩ := hfits
  refine ⟨scan, ⟨max enough enough', fun fuel hf => ?_⟩, hrest⟩
  rw [← h fuel (by omega), hrun fuel (by omega)]

theorem scanFits_congr {run run' : Nat → Option Scan} (enough : Nat) (h : ∀ fuel, enough ≤ fuel → run fuel = run' fuel) :
    ScanFits last run ↔ ScanFits last run' :=
  ⟨.congr enough h, .congr enough fun fuel hf => (h fuel hf).symm⟩

-- The conditions on an answer section: no address beyond the end, no unknown record in front of
-- an address when there are several, no pointer at the last octet in the name of a CNAME.
def Readable (m : Allocs) (buf : Memory) (last nan i : Nat) : Prop :=
  AddressesInside last (answers buf last nan i) ∧
    ((answers buf last nan i).length = nan →
      (2 ≤ countA (answers buf last nan i) → m.addrs = true → Aligned (answers buf last nan i)) ∧
      (countA (answers buf last nan i) = 0 → ∀ p, lastCname none (answers buf last nan i) = some p →
        PointersInside buf last (visited buf last 128 p)))

theorem measure_inside {len : Int} (h : ∀ o ∈ (measure buf last turns i len).2, o < last) :
    PointersInside buf last (visited buf last turns i) := by
  induction turns generalizing i len with
  | zero => exact fun v hv => absurd hv List.not_mem_nil
  | succ turns ih =>
      rw [measure_succ] at h
      rw [visited]
      intro v hv hmark
      by_cases h0 : buf i = 0
      · rw [if_pos (.inl h0)] at hv
        rw [List.mem_singleton.mp hv] at hmark
        exact absurd h0 (not_zero_of_eitherBit hmark)
      rw [if_neg h0] at h
      have hhead : (∀ o ∈ (if eitherBit (buf i) then [i, i + 1] else [i]), o < last) → v = i → v + 1 < last := by
        rintro h rfl
        rw [hmark] at h
        exact h (v + 1) (by simp)
      by_cases hq : last ≤ next buf i
      · dsimp only at h
        rw [if_pos hq] at h
        rw [if_pos (.inr hq)] at hv
        exact hhead h (List.mem_singleton.mp hv)
      · dsimp only at h
        rw [if_neg hq, mem_append_all] at h
        rw [if_neg (by simp [h0, hq])] at hv
        cases List.mem_cons.mp hv with
        | inl heq => exact hhead h.1 heq
        | inr hrest => exact ih h.2 v hrest hmark

theorem copy_measure {name alloc : Bool} {src : Nat} {c : Copied} (h : copy fuel buf src last name alloc = some c) :
    ∀ o ∈ (measure buf last 128 src (-1)).2, o ∈ c.reads := by
  intro o ho
  rw [copy] at h
  cases hm : measure buf last 128 src (-1) with
  | mk e reads =>
  rw [hm] at h ho
  cases e with
  | invalid err =>
      cases h
      exact ho
  | done len =>
      dsimp only at h
      split at h
      · cases h
        exact ho
      split at h
      · cases h
        exact ho
      split at h
      · cases h
        exact ho
      · rw [Option.bind_eq_bind, Option.bind_eq_some_iff] at h
        obtain ⟨⟨dst, rest⟩, _, h⟩ := h
        cases h
        exact List.mem_append_left _ ho

-- A copy keeps inside of the response exactly when no pointer it meets is at the last octet.
variable (buf) in
theorem copy_inside (src : Nat) (name alloc : Bool) (hsrc : src < last) :
    ∃ c, (∀ fuel, 128 ≤ fuel → copy fuel buf src last name alloc = some c) ∧
      ((∀ o ∈ c.reads, o < last) ↔ PointersInside buf last (visited buf last 128 src)) := by
  obtain ⟨c, hrun, hreads, _⟩ := copy_spec buf src last name alloc hsrc
  exact ⟨c, hrun, fun h => measure_inside fun o ho => h o (copy_measure (hrun 128 (Nat.le_refl _)) o ho), hreads⟩

variable (buf last) in
theorem answers_data (nan i : Nat) : ∀ an ∈ answers buf last nan i, an.data < last := by
  induction nan generalizing i with
  | zero => simp [answers]
  | succ nan ih =>
      cases h : (parseRecord buf last i).1 with
      | short => simp [answers, h]
      | invalid => simp [answers, h]
      | record an =>
          rw [answers_record h]
          split
          · simp
          · exact List.forall_mem_cons.mpr ⟨(parseRecord_record h).2.1, ih _⟩

variable (ans) in
theorem lastCname_mem {p : Nat} (c : Option Nat) (h : lastCname c ans = some p) :
    c = some p ∨ ∃ an ∈ ans, an.data = p := by
  induction ans generalizing c with
  | nil => exact .inl h
  | cons an ans ih =>
      rw [lastCname, List.foldl_cons] at h
      cases ih _ h with
      | inr h =>
          obtain ⟨an', hmem, hp⟩ := h
          exact .inr ⟨an', List.mem_cons_of_mem _ hmem, hp⟩
      | inl h =>
          split at h
          · exact .inr ⟨an, List.mem_cons_self, Option.some.inj h⟩
          · exact .inl h

theorem scanAnswers_fits (rn i : Nat) :
    ScanFits last (fun fuel => scanAnswers fuel r m buf last nan i rn seen) ↔
      (∀ o ∈ seen, o < last) ∧ Readable m buf last nan i := by
  obtain ⟨hreads, hall, hpart⟩ := @firstPass_spec buf last nan i ⟨0, [], none, 0⟩
  have hcn := fun p h => lastCname_mem (answers buf last nan i) (p := p) none h
  have hdata := answers_data buf last nan i
  have halign := fun n naddrs => @secondPass_aligned buf last nan i naddrs n
  have hapart := fun n naddrs fuel s => @secondPass_apart buf last nan i fuel naddrs n s
  generalize hans : answers buf last nan i = ans at *
  cases hfp : firstPass buf last nan i ⟨0, [], none, 0⟩ with
  | mk e rest =>
  obtain ⟨first, reads⟩ := rest
  rw [hfp] at hreads hall hpart
  dsimp only at hreads hall hpart
  -- without a second pass there is nothing to compare
  have hsingle : ∀ {run : Nat → Option Scan} (scan : Scan) (enough : Nat),
      (∀ fuel, enough ≤ fuel → run fuel = some scan) → scan.second = none →
        (ScanFits last run ↔ ∀ o ∈ scan.reads, o < last) := by
    intro run scan enough hrun hnone
    rw [scanFits_of_run enough hrun, hnone]
    simp
  rw [Readable, hans]
  by_cases hlen : ans.length = nan
  · obtain ⟨s, rfl, rfl, hnaddrs, hcname⟩ := hall hlen
    rw [Nat.zero_add] at hnaddrs
    by_cases hone : s.naddrs = 1
    · rw [hsingle ⟨seen ++ reads, first, 1, none, ⟨[.node rn], answerAddrs r rn 1 [s.addr]⟩⟩ 0
        (fun fuel _ => by simp [scanAnswers, hfp, hone]) rfl, mem_append_all, hreads]
      refine and_congr_right fun _ => ⟨fun h => ⟨h, fun _ => ⟨fun h2 => ?_, fun h0 => ?_⟩⟩, And.left⟩
      · omega
      · omega
    by_cases hzero : s.naddrs = 0
    · rw [← hnaddrs, hzero]
      cases hc : s.cname with
      | none =>
          rw [hsingle ⟨seen ++ reads, first, 0, none, ⟨[.node rn], [.log
            (ngxString "no A or CNAME types in DNS responses, unknown query type: %ui")]⟩⟩ 0
            (fun fuel _ => by simp [scanAnswers, hfp, hzero, hc]) rfl, mem_append_all, hreads]
          refine and_congr_right fun _ => ⟨fun h => ⟨h, fun _ => ⟨fun h2 => ?_, fun _ p hp => ?_⟩⟩, And.left⟩
          · omega
          · rw [← hcname, hc] at hp
            cases hp
      | some p =>
          obtain ⟨an, hmem, hp⟩ := (hcn p (hcname.symm.trans hc)).resolve_left (by simp)
          have hplast : p < last := hp ▸ hdata an hmem
          obtain ⟨c, hrun, hc'⟩ := copy_inside buf p true m.answer hplast
          rw [hsingle ⟨seen ++ reads ++ c.reads, first, 0, none, ⟨[.node rn],
            if c.rc ≠ .ok then [] else answerCname r rn (c.name.getD [])⟩⟩ 128
            (fun fuel hf => by simp [scanAnswers, hfp, hzero, hc, hrun fuel hf]) rfl, mem_append_all,
            mem_append_all, hreads, hc', and_assoc]
          refine and_congr_right fun _ => and_congr_right fun _ => ⟨fun h _ => ⟨fun h2 => ?_, fun _ q hq => ?_⟩, fun h => ?_⟩
          · omega
          · rw [← hcname, hc] at hq
            exact Option.some.inj hq ▸ h
          · exact (h hlen).2 rfl p (hcname.symm.trans hc)
    · cases hm : m.addrs with
      | false =>
          rw [hsingle ⟨seen ++ reads, first, s.naddrs, none, ⟨[.node rn], []⟩⟩ 0
            (fun fuel _ => by simp [scanAnswers, hfp, hone, hzero, hm]) rfl, mem_append_all, hreads]
          refine and_congr_right fun _ => ⟨fun h => ⟨h, fun _ => ⟨fun _ hm => ?_, fun h0 => ?_⟩⟩, And.left⟩
          · cases hm
          · omega
      | true =>
          have hrun : ∀ fuel, scanAnswers fuel r m buf last nan i rn seen =
              (secondPass fuel buf s.naddrs nan i 0).bind fun second =>
                some ⟨seen ++ reads ++ second.reads, first, s.naddrs, some second, ⟨[.node rn],
                  if !m.dup then [.setAddrs rn second.addrs] else answerAddrs r rn s.naddrs second.addrs⟩⟩ := by
            intro fuel
            simp [scanAnswers, hfp, hone, hzero, hm]
          constructor
          · rintro ⟨scan, ⟨enough, hsome⟩, hin, hsecond⟩
            have h := (hrun _).symm.trans (hsome _ (Nat.le_max_left enough last))
            obtain ⟨second, hpass, hscan⟩ := Option.bind_eq_some_iff.mp h
            cases hscan
            rw [mem_append_all, mem_append_all, hreads] at hin
            refine ⟨hin.1.1, hin.1.2, fun _ => ⟨fun _ _ => ?_, fun h0 => ?_⟩⟩
            · exact hapart 0 s.naddrs _ second hlen (by omega) (by omega) (Nat.le_max_right _ _) hpass (hsecond second rfl).1
            · omega
          · rintro ⟨hseen, hinside, hrest⟩
            obtain ⟨second, hpass, hpre, hsize, hsreads⟩ :=
              halign 0 s.naddrs hlen (by omega) (by omega) ((hrest hlen).1 (by omega) rfl) hinside
            refine (scanFits_of_run last fun fuel hf => by rw [hrun, hpass fuel hf, Option.bind_some]).mpr ⟨?_, ?_⟩
            · exact mem_append_all.mpr ⟨mem_append_all.mpr ⟨hseen, hreads.mpr hinside⟩, hsreads⟩
            · intro t ht
              cases ht
              refine ⟨hpre, ?_⟩
              show second.addrs.length = s.naddrs
              omega
  · have hend : ∃ text, ∀ fuel, scanAnswers fuel r m buf last nan i rn seen =
        some ⟨seen ++ reads, first, 0, none, ⟨[.node rn], [.log text]⟩⟩ := by
      obtain rfl | rfl := hpart hlen
      · exact ⟨_, fun fuel => by rw [scanAnswers, hfp]; rfl⟩
      · exact ⟨_, fun fuel => by rw [scanAnswers, hfp]; rfl⟩
    obtain ⟨text, hend⟩ := hend
    rw [hsingle _ 0 (fun fuel _ => hend fuel) rfl, mem_append_all, hreads]
    exact and_congr_right fun _ => ⟨fun h => ⟨h, fun h' => absurd h' hlen⟩, And.left⟩

-- The response is for a node that waits for it, and has answers.
def Accepted (r : Resolver) (m : Allocs) (buf : Memory) (last ident code nan : Nat) : Prop :=
  code = 0 ∧ nan ≠ 0 ∧ ∃ rn, nameNode r m buf last = some rn ∧ ident = (r.node rn).ident

theorem nameNode_some {rn : Nat} (h : nameNode r m buf last = some rn) :
    ∃ c, copy 128 buf 12 last true m.name = some c ∧ c.rc = .ok ∧
      lookupName r (c.name.getD []) (crc32Short (c.name.getD [])).toNat r.nameRbtree = some rn ∧
      (r.node rn).query ≠ none := by
  rw [nameNode, Option.bind_eq_bind, Option.bind_eq_some_iff] at h
  obtain ⟨c, hc, h⟩ := h
  by_cases hrc : c.rc = .ok
  · rw [if_neg (by simp [hrc]), Option.bind_eq_bind, Option.bind_eq_some_iff] at h
    obtain ⟨rn', hlook, hq⟩ := h
    rw [withQuery] at hq
    split at hq
    · cases hq
    · cases hq
      exact ⟨c, hc, hrc, hlook, by assumption⟩
  · rw [if_pos hrc] at h
    cases h

-- A response that is scanned.
theorem processA_accepted {rn ident : Nat} (i : Nat) (hlast : 12 < last) (hnode : nameNode r m buf last = some rn)
    (hident : ident = (r.node rn).ident) (hnan : nan ≠ 0) :
    ScanFits last (fun fuel => processA fuel r m buf last ident 0 nan i) ↔
      PointersInside buf last (visited buf last 128 12) ∧ Readable m buf last nan i := by
  obtain ⟨c, hc, hrc, hlook, hq⟩ := nameNode_some hnode
  obtain ⟨c', hrun, hinside⟩ := copy_inside buf 12 true m.name hlast
  have heq := Option.some.inj ((hrun 128 (Nat.le_refl _)).symm.trans hc)
  subst heq
  have hstep : ∀ fuel, 128 ≤ fuel → processA fuel r m buf last ident 0 nan i
      = scanAnswers fuel r m buf last nan i rn c'.reads := by
    intro fuel hf
    simp [processA, hrun fuel hf, hrc, hlook, hq, hident, hnan]
  rw [scanFits_congr 128 hstep, scanAnswers_fits, hinside]

-- A response that is not scanned is read by the copy of its name only.
theorem processA_refused {c : Copied} {ident code : Nat} (i : Nat)
    (hrun : ∀ fuel, 128 ≤ fuel → copy fuel buf 12 last true m.name = some c)
    (hnot : ¬ Accepted r m buf last ident code nan) :
    ∃ reply, ∀ fuel, 128 ≤ fuel → processA fuel r m buf last ident code nan i = some ⟨c.reads, [], 0, none, reply⟩ := by
  have hc := hrun 128 (Nat.le_refl _)
  by_cases hrc : c.rc = .ok
  · cases hlook : lookupName r (c.name.getD []) (crc32Short (c.name.getD [])).toNat r.nameRbtree with
    | none =>
        exact ⟨⟨[], [.log (ngxString "unexpected response for %V")]⟩,
          fun fuel hf => by simp [processA, hrun fuel hf, hrc, hlook]⟩
    | some rn =>
        by_cases hq : (r.node rn).query = none
        · exact ⟨⟨[], [.log (ngxString "unexpected response for %V")]⟩,
            fun fuel hf => by simp [processA, hrun fuel hf, hrc, hlook, hq]⟩
        have hnode : nameNode r m buf last = some rn := by simp [nameNode, hc, hrc, hlook, withQuery, hq]
        by_cases hident : ident = (r.node rn).ident
        · have hcode : (if code = 0 ∧ nan = 0 then 3 else code) ≠ 0 := by
            have hscan : ¬ (code = 0 ∧ nan ≠ 0) := fun h => hnot ⟨h.1, h.2, rn, hnode, hident⟩
            split <;> omega
          refine ⟨⟨[.node rn], answerCode r rn (if code = 0 ∧ nan = 0 then 3 else code)⟩, fun fuel hf => ?_⟩
          simp only [processA, hrun fuel hf, hlook, Option.bind_eq_bind, Option.bind_some]
          simp [hrc, hq, hident, hcode]
        · exact ⟨⟨[.node rn], [.log (ngxString "wrong ident %ui response for %V, expect %ui")]⟩,
            fun fuel hf => by simp [processA, hrun fuel hf, hrc, hlook, hq, hident]⟩
  · exact ⟨⟨[], []⟩, fun fuel hf => by simp [processA, hrun fuel hf, hrc]⟩

theorem processA_fits (r : Resolver) (m : Allocs) (buf : Memory) (last ident code nan ans : Nat) (hlast : 12 < last) :
    ScanFits last (fun fuel => processA fuel r m buf last ident code nan ans) ↔
      PointersInside buf last (visited buf last 128 12) ∧
        (Accepted r m buf last ident code nan → Readable m buf last nan ans) := by
  by_cases hacc : Accepted r m buf last ident code nan
  · obtain ⟨rfl, hnan, rn, hnode, hident⟩ := hacc
    rw [processA_accepted ans hlast hnode hident hnan]
    exact and_congr_right fun _ => ⟨fun h _ => h, fun h => h ⟨rfl, hnan, rn, hnode, hident⟩⟩
  · obtain ⟨c, hrun, hinside⟩ := copy_inside buf 12 true m.name hlast
    obtain ⟨reply, hreply⟩ := processA_refused ans hrun hacc
    rw [scanFits_of_run 128 hreply, hinside]
    simp [hacc]

-- ngx_resolver_process_response calls ngx_resolver_process_a for responses of this size only.
theorem processResponse_calls {i : Nat} (h : skipQuestion buf last (last - 12) 12 = some i) : 12 < last := by
  have hi := skipQuestion_lt h
  omega

-- A resolver that has asked for "a", and a response with an address of one octet at its end.
def asked : Resolver where
  node := fun _ => ⟨(crc32Short [97]).toNat, [97], some (0, 7), [1]⟩
  nameRbtree := .node 0 .nil .nil
  addrRbtree := .nil
  nameResendQueue := [0]
  addrResendQueue := []
  queried := by simp
  sentinelIdent := 0
  time := 0
  valid := 300
  expire := 30

def shortAddress : Memory := memoryOf
  [0, 7, 0x80, 0, 0, 1, 0, 1, 0, 0, 0, 0, 1, 97, 0, 0, 1, 0, 1, 192, 12, 0, 1, 0, 1, 0, 0, 0, 0, 0, 1, 9]

theorem processA_fits_asked :
    ScanFits 32 (fun fuel => processA fuel asked ⟨true, true, true, true⟩ shortAddress 32 7 0 1 19) ↔
      PointersInside shortAddress 32 (visited shortAddress 32 128 12) ∧
        (Accepted asked ⟨true, true, true, true⟩ shortAddress 32 7 0 1 →
          Readable ⟨true, true, true, true⟩ shortAddress 32 1 19) :=
  processA_fits asked ⟨true, true, true, true⟩ shortAddress 32 7 0 1 19 (by decide)

theorem short_address_overreads : ¬ ∀ r m buf last ident code nan ans, 12 < last →
    ScanFits last (fun fuel => processA fuel r m buf last ident code nan ans) := by
  intro h
  have hnode : nameNode asked ⟨true, true, true, true⟩ shortAddress 32 = some 0 := by decide
  have hfits := (processA_accepted (r := asked) 19 (by decide) hnode (by decide) (by decide)).mp
    (h asked ⟨true, true, true, true⟩ shortAddress 32 7 0 1 19 (by decide))
  have hanswers : answers shortAddress 32 1 19 = [⟨19, 21, 1, 1⟩] := by decide
  have hinside := hfits.2.1 ⟨19, 21, 1, 1⟩ (by rw [hanswers]; exact List.mem_cons_self) rfl
  exact absurd hinside (by decide)

end Nginx.Core.Resolver
