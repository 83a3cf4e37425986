import Xv6.Log.Commit

/-!
# Crash — atomicity of `commit` across crashes

`log.c` is an instance of the redo log of `WriteTrace`: the head cell is block `log.start`,
slot `i` is block `log.start + i + 1`, and a head value is read with `readHead`.  The first half of
this file shows that the writes `commit` and `recover_from_log` issue are the generic write
sequences; the second half reads off what a crash at any point leaves on the disk.
-/

namespace Xv6.Log

open Common
open Common.RedoLog

/-- Where the log lives on a disk whose log region starts at `start`. -/
def redoLog (start : ℕ) : RedoLog ℕ Block :=
  { head := start
    slot := fun i => start + i + 1
    decode := fun hb => (readHead hb).map LogHeader.block }

/-- The blocks of the log region, the header block included. -/
def InLog (start nlog b : ℕ) : Prop :=
  start ≤ b ∧ b < start + nlog

/-- The disk a crash leaves when only the first `k` of the writes `ws` reached it. -/
def crash (disk : Disk) (ws : List (ℕ × Block)) (k : ℕ) : Disk :=
  applyWrites (ws.take k) disk

/-- `Interrupted start d d'`: any number of recoveries were started on `d`, each cut off after some
prefix of its writes, and left `d'`. -/
inductive Interrupted (start : ℕ) : Disk → Disk → Prop
  | refl (d : Disk) : Interrupted start d d
  | cut {d d' : Disk} {s : LogState} (k : ℕ) :
      recoverFromLog start d = some s → Interrupted start (crash d s.issued k) d' →
        Interrupted start d d'

theorem region_redoLog {start nlog n : ℕ} (h : n + 1 ≤ nlog) :
    (redoLog start).Region (InLog start nlog) n := by
  refine ⟨?_, ?_, ?_, ?_⟩
  · simp only [redoLog, InLog]
    omega
  · intro i hi
    simp only [redoLog, InLog]
    omega
  · intro i _
    simp only [redoLog]
    omega
  · intro i j _ _ hij
    simp only [redoLog] at hij
    omega

theorem decode_encodeHead (start : ℕ) (lh : LogHeader) (hb : Block) :
    (redoLog start).decode (encodeHead lh hb) = some lh.block := by
  simp [redoLog, readHead_encodeHead]

/-! ## What the functions of `log.c` issue -/

namespace LogState

/-- `s.Issues ws t`: going from `s` to `t` issued exactly `ws`, and the cache followed them. -/
structure Issues (s : LogState) (ws : List (ℕ × Block)) (t : LogState) : Prop where
  issued : t.issued = s.issued ++ ws
  cache : t.cache = applyWrites ws s.cache
  start : t.start = s.start
  lh : t.lh = s.lh

theorem Issues.refl (s : LogState) : s.Issues [] s :=
  ⟨by simp, rfl, rfl, rfl⟩

theorem Issues.bwrite (s : LogState) (b : ℕ) (data : Block) : s.Issues [(b, data)] (s.bwrite b data) :=
  ⟨rfl, rfl, rfl, rfl⟩

theorem Issues.trans {s t u : LogState} {ws vs : List (ℕ × Block)} (h1 : s.Issues ws t)
    (h2 : t.Issues vs u) : s.Issues (ws ++ vs) u := by
  refine ⟨?_, ?_, ?_, ?_⟩
  · rw [h2.issued, h1.issued, List.append_assoc]
  · rw [h2.cache, h1.cache, applyWrites_append]
  · rw [h2.start, h1.start]
  · rw [h2.lh, h1.lh]

/-- The copy loop reads every block before anything could have changed it, because it only writes
log blocks. -/
theorem issues_writeLogFrom {s : LogState} {nlog tail : ℕ} {bs : List ℕ} {new : Disk}
    (hfit : tail + bs.length + 1 ≤ nlog) (hout : ∀ b ∈ bs, ¬ InLog s.start nlog b)
    (hnew : ∀ b ∈ bs, s.cache b = new b) :
    s.Issues ((redoLog s.start).slotWrites new tail bs) (s.writeLogFrom tail bs) := by
  induction bs generalizing s tail with
  | nil => exact Issues.refl s
  | cons b bs ih =>
    have hlen : tail + 1 + bs.length + 1 ≤ nlog := by
      simp only [List.length_cons] at hfit
      omega
    have hb : s.bread b = new b := hnew b (by simp)
    have hfirst := Issues.bwrite s (s.start + tail + 1) (s.bread b)
    have hrest : (s.bwrite (s.start + tail + 1) (s.bread b)).Issues
        ((redoLog s.start).slotWrites new (tail + 1) bs)
        ((s.bwrite (s.start + tail + 1) (s.bread b)).writeLogFrom (tail + 1) bs) := by
      refine ih hlen (fun c hc => hout c (List.mem_cons_of_mem _ hc)) ?_
      intro c hc
      have hne : c ≠ s.start + tail + 1 := by
        rintro rfl
        exact hout _ (List.mem_cons_of_mem _ hc) ⟨by omega, by omega⟩
      simp only [LogState.bwrite, Function.update_of_ne hne]
      exact hnew c (List.mem_cons_of_mem _ hc)
    have hall := hfirst.trans hrest
    rw [hb] at hall
    simpa [slotWrites, writeLogFrom, redoLog, hb] using hall

/-- The install loop reads every log block before anything could have changed it, because it only
writes home blocks. -/
theorem issues_installTransFrom {s : LogState} {nlog tail : ℕ} {bs : List ℕ} {d : Disk}
    (hfit : tail + bs.length + 1 ≤ nlog) (hout : ∀ b ∈ bs, ¬ InLog s.start nlog b)
    (hd : ∀ b, InLog s.start nlog b → s.cache b = d b) :
    s.Issues ((redoLog s.start).installWrites d tail bs) (s.installTransFrom tail bs) := by
  induction bs generalizing s tail with
  | nil => exact Issues.refl s
  | cons b bs ih =>
    have hlen : tail + 1 + bs.length + 1 ≤ nlog := by
      simp only [List.length_cons] at hfit
      omega
    have hread : s.bread (s.start + tail + 1) = d (s.start + tail + 1) := hd _ ⟨by omega, by omega⟩
    have hfirst := Issues.bwrite s b (s.bread (s.start + tail + 1))
    have hrest : (s.bwrite b (s.bread (s.start + tail + 1))).Issues
        ((redoLog s.start).installWrites d (tail + 1) bs)
        ((s.bwrite b (s.bread (s.start + tail + 1))).installTransFrom (tail + 1) bs) := by
      refine ih hlen (fun c hc => hout c (List.mem_cons_of_mem _ hc)) ?_
      intro c hc
      have hne : c ≠ b := by
        rintro rfl
        exact hout c (by simp) hc
      simp only [LogState.bwrite, Function.update_of_ne hne]
      exact hd c hc
    have hall := hfirst.trans hrest
    rw [hread] at hall
    simpa [installWrites, installTransFrom, redoLog, hread] using hall

theorem issues_writeHead (s : LogState) : s.Issues [(s.start, encodeHead s.lh (s.cache s.start))] s.writeHead :=
  Issues.bwrite s s.start _

end LogState

theorem installWrites_eq_map {L : RedoLog ℕ Block} {d new : Disk} {tail : ℕ} {bs : List ℕ}
    (h : ∀ i b, bs[i]? = some b → d (L.slot (tail + i)) = new b) :
    L.installWrites d tail bs = bs.map (fun b => (b, new b)) := by
  induction bs generalizing tail with
  | nil => rfl
  | cons b bs ih =>
    have hb : d (L.slot tail) = new b := by simpa using h 0 b (by simp)
    have hrest : L.installWrites d (tail + 1) bs = bs.map (fun b => (b, new b)) := by
      refine ih ?_
      intro i c hc
      have hi := h (i + 1) c (by simpa using hc)
      simpa [Nat.add_assoc, Nat.add_comm 1 i] using hi
    simp [installWrites, hb, hrest]

/-- The writes of `commit` are those of the generic commit, with the logged contents being what the
cache held when it was called. -/
theorem commit_issued {s : LogState} {nlog : ℕ} (hpos : 0 < s.lh.n) (hfit : s.lh.n + 1 ≤ nlog)
    (hout : ∀ b ∈ s.lh.block, ¬ InLog s.start nlog b) :
    ∃ hdr clr, (redoLog s.start).decode hdr = some s.lh.block ∧ (redoLog s.start).decode clr = some [] ∧
      s.commit.issued = s.issued ++ (redoLog s.start).commitWrites s.lh.block s.cache hdr clr := by
  have hfit' : 0 + s.lh.block.length + 1 ≤ nlog := by simpa [LogHeader.n] using hfit
  have hL : (redoLog s.start).Region (InLog s.start nlog) s.lh.block.length := region_redoLog hfit
  have h1 : s.Issues ((redoLog s.start).slotWrites s.cache 0 s.lh.block) s.writeLog :=
    LogState.issues_writeLogFrom hfit' hout (fun _ _ => rfl)
  have h2 := h1.trans (LogState.issues_writeHead s.writeLog)
  -- Between the two `write_head` calls the slots hold the logged contents.
  have hslots : ∀ i b, s.lh.block[i]? = some b →
      s.writeLog.writeHead.cache ((redoLog s.start).slot (0 + i)) = s.cache b := by
    intro i b hb
    have hi : i < s.lh.block.length := (List.getElem?_eq_some_iff.1 hb).1
    have hne : (redoLog s.start).slot i ≠ s.writeLog.start := by
      rw [h1.start]
      exact hL.slot_ne_head i hi
    have hfill : applyWrites ((redoLog s.start).slotWrites s.cache 0 s.lh.block) s.cache
        ((redoLog s.start).slot i) = s.cache b := applyWrites_slotWrites hL hb
    rw [Nat.zero_add]
    simpa [LogState.writeHead, LogState.bwrite, Function.update_of_ne hne, h1.cache] using hfill
  have hstart2 : s.writeLog.writeHead.start = s.start := h2.start
  have hlh2 : s.writeLog.writeHead.lh = s.lh := h2.lh
  have h3 : s.writeLog.writeHead.Issues (s.lh.block.map (fun b => (b, s.cache b)))
      s.writeLog.writeHead.installTrans := by
    have hout2 : ∀ b ∈ s.lh.block, ¬ InLog s.writeLog.writeHead.start nlog b := by
      simpa [hstart2] using hout
    have hinst := LogState.issues_installTransFrom (d := s.writeLog.writeHead.cache) hfit' hout2
      (fun _ _ => rfl)
    rw [hstart2, installWrites_eq_map hslots] at hinst
    simpa [LogState.installTrans, hlh2] using hinst
  have hstart1 : s.writeLog.start = s.start := h1.start
  have hlh1 : s.writeLog.lh = s.lh := h1.lh
  have hstart3 : s.writeLog.writeHead.installTrans.start = s.start := by rw [h3.start, hstart2]
  have hissued := (h2.trans h3).issued
  rw [hstart1, hlh1] at hissued
  let s3 := s.writeLog.writeHead.installTrans
  have hcommit : s.commit.issued = s3.issued ++ [(s3.start, encodeHead LogHeader.empty (s3.cache s3.start))] := by
    rw [LogState.commit, if_pos hpos]
    rfl
  refine ⟨encodeHead s.lh (s.writeLog.cache s.start),
    encodeHead LogHeader.empty (s3.cache s3.start), decode_encodeHead _ _ _,
    decode_encodeHead _ _ _, ?_⟩
  rw [hcommit, hissued, hstart3]
  simp [commitWrites, redoLog]

theorem recoverFromLog_issued {start nlog : ℕ} {d : Disk} {bs : List ℕ}
    (hdec : (redoLog start).decode (d start) = some bs) (hfit : bs.length + 1 ≤ nlog)
    (hout : ∀ b ∈ bs, ¬ InLog start nlog b) :
    ∃ s clr, recoverFromLog start d = some s ∧ (redoLog start).decode clr = some [] ∧
      s.issued = (redoLog start).recoverWrites d bs clr := by
  cases hread : readHead (d start) with
  | none => simp [redoLog, hread] at hdec
  | some lh =>
    have hbs : lh.block = bs := by simpa [redoLog, hread] using hdec
    subst hbs
    let s1 : LogState := { boot start d with lh := lh }
    have hfit' : 0 + lh.block.length + 1 ≤ nlog := by simpa using hfit
    have hinst : s1.Issues ((redoLog start).installWrites d 0 lh.block) s1.installTrans :=
      LogState.issues_installTransFrom (s := s1) hfit' hout (fun _ _ => rfl)
    have hstart : s1.installTrans.start = start := hinst.start
    refine ⟨({ s1.installTrans with lh := LogHeader.empty } : LogState).writeHead,
      encodeHead LogHeader.empty (s1.installTrans.cache start), ?_, decode_encodeHead _ _ _, ?_⟩
    · simp [recoverFromLog, LogState.bread, boot, hread, s1]
    · have hissued := hinst.issued
      simp only [LogState.writeHead, LogState.bwrite, LogState.bread, hstart, hissued]
      simp [recoverWrites, redoLog, s1, boot]

/-! ## Crash atomicity -/

section Atomicity

variable {start nlog : ℕ} {home : List ℕ} {new old f d d' : Disk}

theorem Interrupted.clean (hnlog : 1 ≤ nlog) (h : Interrupted start d d')
    (hd : (redoLog start).Clean (InLog start nlog) f d) :
    (redoLog start).Clean (InLog start nlog) f d' := by
  induction h with
  | refl d => exact hd
  | cut k hrec _ ih =>
    obtain ⟨s, clr, hs, hclr, hissued⟩ := recoverFromLog_issued hd.head (by simpa using hnlog) (by simp)
    obtain rfl : _ = s := Option.some.inj (hrec.symm.trans hs)
    refine ih ?_
    rw [crash, hissued]
    exact hd.recover_crash (n := 0) (region_redoLog (by omega)) hclr k

theorem Interrupted.committed (hfit : home.length + 1 ≤ nlog)
    (hout : ∀ b ∈ home, ¬ InLog start nlog b) (h : Interrupted start d d')
    (hd : (redoLog start).Committed (InLog start nlog) home new old d ∨
      (redoLog start).Clean (InLog start nlog) (overlay home new old) d) :
    (redoLog start).Committed (InLog start nlog) home new old d' ∨
      (redoLog start).Clean (InLog start nlog) (overlay home new old) d' := by
  induction h with
  | refl d => exact hd
  | @cut d d' s k hrec hrest ih =>
    rcases hd with hd | hd
    · obtain ⟨t, clr, ht, hclr, hissued⟩ := recoverFromLog_issued hd.head hfit hout
      obtain rfl : s = t := Option.some.inj (hrec.symm.trans ht)
      refine ih ?_
      rw [crash, hissued]
      rcases hd.recover_crash (region_redoLog hfit) hout hclr k with ⟨_, hc⟩ | ⟨_, hc⟩
      · exact Or.inl hc
      · exact Or.inr hc
    · exact Or.inr ((Interrupted.cut k hrec hrest).clean (by omega) hd)

theorem recover_of_clean (hnlog : 1 ≤ nlog)
    (hd : (redoLog start).Clean (InLog start nlog) f d) :
    ∃ s, recoverFromLog start d = some s ∧ (redoLog start).Clean (InLog start nlog) f (applyWrites s.issued d) := by
  obtain ⟨s, clr, hs, hclr, hissued⟩ := recoverFromLog_issued hd.head (by simpa using hnlog) (by simp)
  refine ⟨s, hs, ?_⟩
  have hfull := hd.recover_crash (n := 0) (region_redoLog (by omega)) hclr s.issued.length
  rwa [← hissued, List.take_length] at hfull

theorem recover_of_committed (hfit : home.length + 1 ≤ nlog)
    (hout : ∀ b ∈ home, ¬ InLog start nlog b)
    (hd : (redoLog start).Committed (InLog start nlog) home new old d) :
    ∃ s, recoverFromLog start d = some s ∧
      (redoLog start).Clean (InLog start nlog) (overlay home new old) (applyWrites s.issued d) := by
  obtain ⟨s, clr, hs, hclr, hissued⟩ := recoverFromLog_issued hd.head hfit hout
  refine ⟨s, hs, ?_⟩
  have hlen : s.issued.length = home.length + 1 := by
    have hmap := congrArg List.length (map_fst_installWrites (L := redoLog start) d 0 home)
    simp only [List.length_map] at hmap
    rw [hissued]
    simp [recoverWrites, hmap]
  rcases hd.recover_crash (region_redoLog hfit) hout hclr (home.length + 1) with ⟨hle, _⟩ | ⟨_, hc⟩
  · omega
  · rwa [← hissued, ← hlen, List.take_length] at hc

/-- What a finished recovery has to show: the header is cleared, the home blocks hold `old` or hold
`new`, and no other block outside the log was touched. -/
structure Recovered (start nlog : ℕ) (home : List ℕ) (old new : Disk) (committed : Prop)
    (final : Disk) : Prop where
  cleared : readHead (final start) = some LogHeader.empty
  atomic : (∀ b ∈ home, final b = old b) ∨ (∀ b ∈ home, final b = new b)
  durable : committed → ∀ b ∈ home, final b = new b
  frame : ∀ b, b ∉ home → ¬ InLog start nlog b → final b = old b

theorem readHead_of_decode_nil {hb : Block} (h : (redoLog start).decode hb = some []) :
    readHead hb = some LogHeader.empty := by
  cases hread : readHead hb with
  | none => simp [redoLog, hread] at h
  | some lh =>
    have hblock : lh.block = [] := by simpa [redoLog, hread] using h
    exact congrArg some (LogHeader.ext (by simpa [LogHeader.empty] using hblock))

theorem Recovered.of_clean_old {final : Disk} {committed : Prop} (hc : ¬ committed)
    (hout : ∀ b ∈ home, ¬ InLog start nlog b)
    (h : (redoLog start).Clean (InLog start nlog) old final) :
    Recovered start nlog home old new committed final := by
  refine ⟨readHead_of_decode_nil h.head, Or.inl ?_, fun hcomm => absurd hcomm hc, ?_⟩
  · intro b hb
    exact h.cells b (hout b hb)
  · intro b _ hb
    exact h.cells b hb

theorem Recovered.of_clean_overlay {final : Disk} {committed : Prop}
    (hout : ∀ b ∈ home, ¬ InLog start nlog b)
    (h : (redoLog start).Clean (InLog start nlog) (overlay home new old) final) :
    Recovered start nlog home old new committed final := by
  have hnew : ∀ b ∈ home, final b = new b := by
    intro b hb
    have hcell := h.cells b (hout b hb)
    simpa [overlay, hb] using hcell
  refine ⟨readHead_of_decode_nil h.head, Or.inr hnew, fun _ => hnew, ?_⟩
  intro b hmem hb
  have hcell := h.cells b hb
  simpa [overlay, hmem] using hcell

end Atomicity

/-- Crash atomicity.  On a disk whose header says `n = 0`, cut `commit` off after any `k` of its
writes, then cut off any number of recoveries: the next recovery that runs to its end leaves the
header cleared, the logged blocks all old or all new (all new if the first `write_head` was among
the `k` writes), and every other block outside the log as it was.  That the logged blocks are
pairwise distinct is not needed. -/
theorem commit_crash_atomic {start nlog k : ℕ} {lh : LogHeader} {disk cache d : Disk}
    (hclean : (disk start).getInt 0 = 0)
    (hout : ∀ b ∈ lh.block, ¬ InLog start nlog b) (hfit : lh.n + 1 ≤ nlog)
    (hcrash : Interrupted start
      (crash disk (LogState.commit { start := start, lh := lh, cache := cache, issued := [] }).issued k)
      d) :
    ∃ s, recoverFromLog start d = some s ∧ Recovered start nlog lh.block disk cache (0 < lh.n ∧ lh.n + 1 ≤ k)
        (applyWrites s.issued d) := by
  have hdisk : (redoLog start).Clean (InLog start nlog) disk disk := by
    refine ⟨?_, fun _ _ => rfl⟩
    simp [redoLog, readHead, loadBlocks, hclean, Block.toInt]
  by_cases hpos : 0 < lh.n
  · let s₀ : LogState := { start := start, lh := lh, cache := cache, issued := [] }
    obtain ⟨hdr, clr, hhdr, hclr, hissued⟩ := commit_issued (s := s₀) hpos hfit hout
    rw [hissued, List.nil_append] at hcrash
    rcases hdisk.commit_crash (region_redoLog hfit) hout hhdr hclr k with ⟨hk, hc⟩ | ⟨hk, hc⟩
    · rcases recover_of_clean (by omega) (hcrash.clean (by omega) hc) with ⟨s, hs, hfin⟩
      have hnot : ¬ (0 < lh.n ∧ lh.n + 1 ≤ k) := by
        have hk' : k ≤ lh.n := hk
        omega
      exact ⟨s, hs, Recovered.of_clean_old hnot hout hfin⟩
    rcases hcrash.committed hfit hout hc with hd | hd
    · rcases recover_of_committed hfit hout hd with ⟨s, hs, hfin⟩
      exact ⟨s, hs, Recovered.of_clean_overlay hout hfin⟩
    · rcases recover_of_clean (by omega) hd with ⟨s, hs, hfin⟩
      exact ⟨s, hs, Recovered.of_clean_overlay hout hfin⟩
  · -- With `n = 0` the commit issues nothing at all.
    have hcommit : (LogState.commit
        { start := start, lh := lh, cache := cache, issued := [] }).issued = [] := by
      simp [LogState.commit, hpos]
    rw [hcommit] at hcrash
    have hnlog : 1 ≤ nlog := by omega
    have hd := hcrash.clean hnlog (by simpa [crash] using hdisk)
    rcases recover_of_clean hnlog hd with ⟨s, hs, hfin⟩
    exact ⟨s, hs, Recovered.of_clean_old (fun h => hpos h.1) hout hfin⟩

/-- A zeroed disk with its log at block 2, one logged block, and a crash right after `write_head`. -/
theorem commit_crash_atomic_single : let disk : Disk := fun _ _ => 0
    let cache : Disk := fun _ _ => 7
    let lh : LogHeader := { block := [40], length_le := by decide, word := by decide }
    let writes := (LogState.commit { start := 2, lh := lh, cache := cache, issued := [] }).issued
    ∃ s, recoverFromLog 2 (crash disk writes 2) = some s ∧ Recovered 2 Xv6.nlog [40] disk cache (0 < 1 ∧ 1 + 1 ≤ 2)
        (applyWrites s.issued (crash disk writes 2)) := by
  intro disk cache lh writes
  have hout : ∀ b ∈ lh.block, ¬ InLog 2 Xv6.nlog b := by
    intro b hb
    have hb40 : b = 40 := by simpa [lh] using hb
    simp [hb40, InLog, Xv6.nlog, logSize, maxOpBlocks]
  have hclean : (disk 2).getInt 0 = 0 := rfl
  exact commit_crash_atomic hclean hout (by decide) (Interrupted.refl _)

end Xv6.Log
