import Nginx.Http.CharsetFilter.Segments

namespace Nginx.CharsetFilter

variable {table : Table} (extra : Nat → Nat)

theorem bodyFilter_cons (ctx : Ctx) (buf : Bytes) (bufs : List Bytes) (hbuf : buf ≠ []) :
    bodyFilter extra table ctx (buf :: bufs) =
      (recodeFromUtf8 extra table ctx buf).bind fun (ctx, out) =>
        (bodyFilter extra table ctx bufs).map fun (ctx, more) => (ctx, out ++ more) := by
  cases buf with
  | nil => exact absurd rfl hbuf
  | cons c buf => rfl

-- A whole character that is held is never written when nothing comes behind it.
theorem scans_waiting (table : Table) {held : Bytes} (hkept : Kept held) : (∃ r, Scans table held [] r) ↔ Waiting held := by
  rcases hkept with rfl | ⟨c, t, rfl, hhigh, hle⟩
  · exact ⟨fun _ => trivial, fun _ => ⟨[], .nil⟩⟩
  · constructor
    · rintro ⟨r, h⟩
      by_contra hwait
      have hneed : need c ≤ t.length := Nat.not_lt.mp hwait
      obtain ⟨n, k, hdecode, -⟩ := utf8Decode_append c t [] hneed
      obtain ⟨o, r', hrest⟩ := scans_exists table ((c :: t).drop k)
      have hnil := (h.unique (.symbol hhigh hneed hdecode hrest)).1
      exact (symbol_length table n).2 (List.append_eq_nil_iff.mp hnil.symm).1
    · intro hwait
      exact ⟨c :: t, .cut hhigh hwait⟩

-- What has been written and what is held stand for the bytes so far, as long as the bufs are cut well.
theorem bodyFilter_scans_iff (table : Table) (bufs : List Bytes) (hbufs : ∀ buf ∈ bufs, buf ≠ []) (ctx : Ctx) (held : Bytes)
    (hholds : Holds ctx held) (hkept : Kept held) :
    (∃ ctx' out, bodyFilter extra table ctx bufs = some (ctx', out) ∧
      ∃ r, Scans table (held ++ bufs.flatten) (outBytes out) r) ↔ Cut held bufs := by
  induction bufs generalizing ctx held with
  | nil =>
      rw [List.flatten_nil, List.append_nil, Cut, ← scans_waiting table hkept]
      constructor
      · rintro ⟨ctx', out, hrun, hscan⟩
        obtain ⟨-, rfl⟩ := Prod.mk.inj (Option.some.inj hrun)
        exact hscan
      · intro hscan
        exact ⟨ctx, [], rfl, hscan⟩
  | cons buf bufs ih =>
      have hbuf := hbufs buf List.mem_cons_self
      have hstep := recodeFromUtf8_next extra table ctx hholds hkept hbuf
      rw [bodyFilter_cons extra ctx buf bufs hbuf, Cut]
      cases hnext : next held buf with
      | none =>
          rw [hnext] at hstep
          rw [hstep]
          constructor
          · rintro ⟨ctx', out, hrun, -⟩
            exact absurd hrun (by simp)
          · rintro ⟨held', hheld', -⟩
            exact absurd hheld' (by simp)
      | some held' =>
          rw [hnext] at hstep
          obtain ⟨mid, out, hrecode, hleft, hkept', hrest⟩ := hstep
          have hmore := ih (fun b hb => hbufs b (List.mem_cons_of_mem _ hb)) mid held' hleft hkept'
          rw [hrecode, Option.bind_some, List.flatten_cons, ← List.append_assoc]
          constructor
          · rintro ⟨ctx', whole, hrun, r, hscan⟩
            dsimp only at hrun
            obtain ⟨⟨last, more⟩, hbody, heq⟩ := Option.map_eq_some_iff.mp hrun
            obtain ⟨-, rfl⟩ := Prod.mk.inj heq
            obtain ⟨o, r', hbehind⟩ := scans_exists table (held' ++ bufs.flatten)
            obtain ⟨hout, rfl⟩ := hscan.unique (hrest _ _ _ hbehind)
            rw [outBytes, List.flatMap_append] at hout
            have hsame : outBytes more = o := List.append_cancel_left hout
            exact ⟨held', rfl, hmore.mp ⟨last, more, hbody, r, by rw [hsame]; exact hbehind⟩⟩
          · rintro ⟨next', hheld', hcut⟩
            obtain rfl := Option.some.inj hheld'
            obtain ⟨last, more, hbody, r, hscan⟩ := hmore.mpr hcut
            refine ⟨last, out ++ more, ?_, r, ?_⟩
            · dsimp only
              rw [hbody, Option.map_some]
            · rw [outBytes, List.flatMap_append]
              exact hrest _ _ _ hscan

-- ctx->saved_len stays in ctx->saved.
theorem bodyFilter_savedLen (bufs : List Bytes) (hbufs : ∀ buf ∈ bufs, buf ≠ []) (ctx ctx' : Ctx) (held : Bytes)
    (out : List Out) (hholds : Holds ctx held) (hkept : Kept held)
    (hrun : bodyFilter extra table ctx bufs = some (ctx', out)) : ctx'.savedLen ≤ utfLen := by
  induction bufs generalizing ctx held out with
  | nil =>
      obtain ⟨rfl, -⟩ := Prod.mk.inj (Option.some.inj hrun)
      rw [hholds.len]
      rcases hkept with rfl | ⟨c, t, rfl, -, hle⟩
      · exact Nat.zero_le _
      · have hneed := need_le c
        rw [List.length_cons]
        unfold utfLen
        omega
  | cons buf bufs ih =>
      have hbuf := hbufs buf List.mem_cons_self
      have hstep := recodeFromUtf8_next extra table ctx hholds hkept hbuf
      rw [bodyFilter_cons extra ctx buf bufs hbuf] at hrun
      cases hnext : next held buf with
      | none =>
          rw [hnext] at hstep
          rw [hstep] at hrun
          exact absurd hrun (by simp)
      | some held' =>
          rw [hnext] at hstep
          obtain ⟨mid, front, hrecode, hleft, hkept', -⟩ := hstep
          rw [hrecode, Option.bind_some] at hrun
          dsimp only at hrun
          obtain ⟨⟨last, more⟩, hbody, heq⟩ := Option.map_eq_some_iff.mp hrun
          obtain ⟨rfl, -⟩ := Prod.mk.inj heq
          exact ih (fun b hb => hbufs b (List.mem_cons_of_mem _ hb)) mid held' more hleft hkept' hbody

theorem initial_holds : Holds Ctx.initial [] := ⟨rfl, rfl, rfl⟩

-- The whole stream in one buf
theorem bodyFilter_whole (table : Table) (s : Bytes) :
    ∃ ctx whole r, bodyFilter extra table .initial [s] = some (ctx, whole) ∧ Scans table s (outBytes whole) r := by
  by_cases hs : s = []
  · subst hs
    exact ⟨_, _, _, rfl, .nil⟩
  · obtain ⟨o, r, hscan⟩ := scans_exists table s
    obtain ⟨ctx, out, hrun, hout, -⟩ := recodeFromUtf8_fresh extra hscan .initial initial_holds
    refine ⟨ctx, out, r, ?_, by rw [hout]; exact hscan⟩
    rw [bodyFilter_cons extra _ s [] hs, hrun, Option.bind_some]
    simp only [bodyFilter, Option.map_some, List.append_nil]

theorem recode_segments_iff (table : Table) (extra extra' : Nat → Nat) (bufs : List Bytes)
    (hbufs : ∀ buf ∈ bufs, buf ≠ []) :
    (∃ ctx out ctx' whole, bodyFilter extra table .initial bufs = some (ctx, out) ∧
      bodyFilter extra' table .initial [bufs.flatten] = some (ctx', whole) ∧ outBytes out = outBytes whole ∧
      ∀ front ctx out, front <+: bufs → bodyFilter extra table .initial front = some (ctx, out) →
        ctx.savedLen ≤ utfLen) ↔ Cut [] bufs := by
  obtain ⟨ctx', whole, r, hwhole, hscan⟩ := bodyFilter_whole extra' table bufs.flatten
  rw [← bodyFilter_scans_iff extra table bufs hbufs .initial [] initial_holds (Or.inl rfl)]
  constructor
  · rintro ⟨ctx, out, last, whole', hrun, hone, hsame, -⟩
    rw [hwhole] at hone
    obtain ⟨-, rfl⟩ := Prod.mk.inj (Option.some.inj hone)
    exact ⟨ctx, out, hrun, r, by rw [hsame]; exact hscan⟩
  · rintro ⟨ctx, out, hrun, r', hscan'⟩
    refine ⟨ctx, out, ctx', whole, hrun, hwhole, (hscan'.unique hscan).1, ?_⟩
    intro front mid more hfront hpart
    exact bodyFilter_savedLen extra front (fun b hb => hbufs b (hfront.subset hb)) .initial mid [] more initial_holds
      (Or.inl rfl) hpart

-- U+00E9 between two bufs, with more behind it
theorem recode_segments_iff_cut :
    ∃ ctx out ctx' whole, bodyFilter (fun _ => 0) (fun _ => none) .initial [[0x41, 0xc3], [0xa9, 0x42]] = some (ctx, out) ∧
      bodyFilter (fun _ => 0) (fun _ => none) .initial [[0x41, 0xc3, 0xa9, 0x42]] = some (ctx', whole) ∧
      outBytes out = outBytes whole ∧
      ∀ front ctx out, front <+: [[0x41, 0xc3], [0xa9, 0x42]] →
        bodyFilter (fun _ => 0) (fun _ => none) .initial front = some (ctx, out) → ctx.savedLen ≤ utfLen :=
  (recode_segments_iff (fun _ => none) (fun _ => 0) (fun _ => 0) [[0x41, 0xc3], [0xa9, 0x42]] (by decide)).mpr
    ⟨[0xc3], by decide +kernel, [], by decide +kernel, trivial⟩

-- The same character at the end of the stream is not written.
theorem recode_last_lost :
    ¬ ∀ (table : Table) (extra extra' : Nat → Nat) (bufs : List Bytes), (∀ buf ∈ bufs, buf ≠ []) →
      ∃ ctx out ctx' whole, bodyFilter extra table .initial bufs = some (ctx, out) ∧
        bodyFilter extra' table .initial [bufs.flatten] = some (ctx', whole) ∧ outBytes out = outBytes whole ∧
        ∀ front ctx out, front <+: bufs → bodyFilter extra table .initial front = some (ctx, out) →
          ctx.savedLen ≤ utfLen := by
  intro hall
  obtain ⟨ctx, out, ctx', whole, hrun, hwhole, hsame, -⟩ :=
    hall (fun _ => none) (fun _ => 0) (fun _ => 0) [[0xc3], [0xa9]] (by decide)
  have hout : (bodyFilter (fun _ => 0) (fun _ => none) .initial [[0xc3], [0xa9]]).map (fun x => outBytes x.2) = some [] := by
    decide +kernel
  have hone : (bodyFilter (fun _ => 0) (fun _ => none) .initial [[0xc3, 0xa9]]).map (fun x => outBytes x.2) =
      some (ngxString "&#233;") := by
    decide +kernel
  rw [hrun, Option.map_some] at hout
  have hflat : [[(0xc3 : UInt8)], [0xa9]].flatten = [0xc3, 0xa9] := rfl
  rw [hflat] at hwhole
  rw [hwhole, Option.map_some] at hone
  rw [hsame] at hout
  rw [hout] at hone
  exact absurd (Option.some.inj hone) (by decide)

end Nginx.CharsetFilter
