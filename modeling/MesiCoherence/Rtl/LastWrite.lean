import MesiCoherence.Rtl.Exclusive

/-!
# Reads return the latest completed write

The data-value invariant of the hardware: on a set of lines with different memory
indices, as long as no grant evicts a dirty line, every held copy shows the latest
completed write to its line, and so does memory when no cache is dirty.
-/

namespace MesiCoherence.Rtl

variable {pw : ℕ}

namespace MesiTop

section Defs

variable (s : MesiTop pw) (cpu : CpuPorts pw)

/-- Core `c` completes a write this cycle. -/
def WritesDone (c : Core pw) : Prop := s.done cpu c = true ∧ (cpu c).we = true

/-- A grant replaces no other line that is dirty in the owner's set. -/
def NoDirtyReplaced : Prop :=
  ∀ w, s.winner cpu = some w →
    (s.l1 w).tagArr (addrIndex (cpu w).addr) ≠ addrTag (cpu w).addr →
    (s.l1 w).stateArr (addrIndex (cpu w).addr) ≠ .M

instance : Decidable (s.NoDirtyReplaced cpu) := inferInstanceAs (Decidable (∀ _, _))

/-- Copies and memory show `flat` on the lines in `lines`. -/
structure DataInv (lines : Word → Prop) (flat : Word → Word) : Prop where
  copy : ∀ c a, lines (lineOf a) → s.lineState c a ≠ .I → s.payload c a = flat (lineOf a)
  memory : ∀ a, lines (lineOf a) → (∀ c, s.lineState c a ≠ .M) →
    s.mem (midx a) = flat (lineOf a)

end Defs

variable {s : MesiTop pw} {cpu : CpuPorts pw}

theorem writesDone_iff {c : Core pw} :
    s.WritesDone cpu c ↔ s.winner cpu = some c ∧ (cpu c).we = true ∨
      s.winner cpu ≠ some c ∧ s.WritesLocally cpu c := by
  unfold WritesDone
  by_cases hc : s.winner cpu = some c
  · simp [hc, done_winner hc]
  · rw [done_peer_iff hc, L1.localReadDone_iff]
    constructor
    · rintro ⟨⟨-, hwe, -⟩ | hl, hwe'⟩
      · rw [hwe] at hwe'
        cases hwe'
      · exact Or.inr ⟨hc, hl⟩
    · rintro (⟨hw, -⟩ | ⟨-, hl⟩)
      · exact absurd hw hc
      · exact ⟨Or.inr hl, hl.request.2⟩

/-- A write hit that completes is not on the broadcast line. -/
theorem WritesLocally.off_bus {c : Core pw} (h : s.WritesLocally cpu c) :
    ¬ s.OnBus cpu (cpu c).addr := fun hon =>
  L1.localWriteDone_line_ne h hon.1 (bus_txn_cases hon.1) hon.2

/-- On the broadcast line only the owner completes a write. -/
theorem WritesDone.eq_winner {w c : Core pw} (hw : s.winner cpu = some w)
    (h : s.WritesDone cpu c) (hl : lineOf (cpu c).addr = lineOf (cpu w).addr) : c = w := by
  rcases writesDone_iff.mp h with ⟨hc, -⟩ | ⟨-, hloc⟩
  · rw [hw] at hc
    exact (Option.some.inj hc).symm
  · exact absurd ((onBus_iff_of_winner hw _).mpr hl) hloc.off_bus

/-- Off the broadcast line a completed write is a write hit. -/
theorem WritesDone.local_of_off_bus {c : Core pw} (h : s.WritesDone cpu c)
    (hoff : ¬ s.OnBus cpu (cpu c).addr) : s.WritesLocally cpu c := by
  rcases writesDone_iff.mp h with ⟨hc, -⟩ | ⟨-, hloc⟩
  · exact absurd ((onBus_iff_of_winner hc _).mpr rfl) hoff
  · exact hloc

/-- No two writes to one line complete in the same cycle. -/
theorem Exclusive.writesDone_unique (hex : s.Exclusive) {c d : Core pw}
    (hc : s.WritesDone cpu c) (hd : s.WritesDone cpu d)
    (hl : lineOf (cpu c).addr = lineOf (cpu d).addr) : c = d := by
  by_cases hon : s.OnBus cpu (cpu c).addr
  · cases hw : s.winner cpu with
    | none => exact absurd hon (not_onBus_of_no_winner hw _)
    | some w =>
      have hcl := (onBus_iff_of_winner hw _).mp hon
      rw [hc.eq_winner hw hcl, hd.eq_winner hw (hl.symm.trans hcl)]
  · have hlocc := hc.local_of_off_bus hon
    have hlocd : s.WritesLocally cpu d := by
      refine hd.local_of_off_bus fun hond => hon ⟨hond.1, hl.trans hond.2⟩
    by_contra hne
    exact State.ne_I_of_owned (hlocd.held hl) (hex _ c d hne (hlocc.held rfl))

variable {lines : Word → Prop} {flat : Word → Word}

/-- What the bus supplies to a fetching owner is the latest write. -/
theorem DataInv.supplyData_eq (h : s.DataInv lines flat) {w : Core pw}
    (hw : s.winner cpu = some w) (hq : lines (lineOf (cpu w).addr))
    (hst : s.lineState w (cpu w).addr = .I) :
    s.supplyData cpu = flat (lineOf (cpu w).addr) := by
  obtain ⟨txn, -, hbus⟩ := bus_of_winner hw
  unfold supplyData
  rcases aggDirty_cases s cpu with ⟨hnone, hclean⟩ | ⟨c, hc, hsome⟩
  · rw [hnone, hbus]
    refine h.memory _ hq fun c hM => ?_
    by_cases hcw : c = w
    · rw [hcw, hst] at hM
      cases hM
    · have hd := (snoopDirty_iff hw).mpr ⟨hcw, hM⟩
      rw [hclean c] at hd
      cases hd
  · obtain ⟨-, hM⟩ := (snoopDirty_iff hw).mp hc
    rw [hsome, hbus]
    refine h.copy c _ hq ?_
    rw [hM]
    decide

/-- A dirty line of the owner's set other than the granted one would be replaced. -/
theorem NoDirtyReplaced.keeps {w : Core pw} (h : s.NoDirtyReplaced cpu)
    (hw : s.winner cpu = some w) {a : Word} (hi : addrIndex a = addrIndex (cpu w).addr)
    (hl : lineOf a ≠ lineOf (cpu w).addr) : s.lineState w a ≠ .M := by
  intro hM
  unfold lineState CacheArray.lkState at hM
  split at hM
  · next ht =>
    rw [hi] at ht hM
    refine h w hw ?_ hM
    rw [ht]
    exact fun htag => hl ((lineOf_eq_iff_fields _ _).mpr ⟨hi, htag⟩)
  · cases hM

/-- A line that was dirty off the bus is still dirty. -/
theorem NoDirtyReplaced.dirty_off_bus (h : s.NoDirtyReplaced cpu) {a : Word}
    (hoff : ¬ s.OnBus cpu a) {c : Core pw} (hM : s.lineState c a = .M) :
    (s.step cpu).1.lineState c a = .M := by
  by_cases hw : s.winner cpu = some c
  · have hl : lineOf a ≠ lineOf (cpu c).addr := fun hl => hoff ((onBus_iff_of_winner hw a).mpr hl)
    rw [step_lineState_winner hw, if_neg hl, if_neg fun hi => h.keeps hw hi hl hM, hM]
  · rw [step_lineState_peer hw, if_neg hoff]
    split
    · rfl
    · exact hM

/-- The completed writes of a cycle move `flat` to `flat'`. -/
structure FlatStep (s : MesiTop pw) (cpu : CpuPorts pw) (flat flat' : Word → Word) : Prop where
  written : ∀ c, s.WritesDone cpu c → flat' (lineOf (cpu c).addr) = (cpu c).wdata
  kept : ∀ l, (∀ c, s.WritesDone cpu c → lineOf (cpu c).addr ≠ l) → flat' l = flat l

variable {flat' : Word → Word}

/-- On the broadcast line of a read nothing is written. -/
theorem FlatStep.eq_of_read (hf : FlatStep s cpu flat flat') {w : Core pw}
    (hw : s.winner cpu = some w) (hwe : (cpu w).we = false) {a : Word}
    (ha : lineOf a = lineOf (cpu w).addr) : flat' (lineOf a) = flat (lineOf a) := by
  refine hf.kept _ fun c hc hl => ?_
  have hcw := hc.eq_winner hw (hl.trans ha)
  have hwe' := hc.2
  rw [hcw, hwe] at hwe'
  cases hwe'

/-- Off the broadcast line, a line on which no write hit completes keeps its value. -/
theorem FlatStep.eq_of_no_hit (hf : FlatStep s cpu flat flat') {a : Word}
    (hoff : ¬ s.OnBus cpu a)
    (hnone : ∀ c, s.WritesLocally cpu c → lineOf (cpu c).addr ≠ lineOf a) :
    flat' (lineOf a) = flat (lineOf a) := by
  refine hf.kept _ fun c hc hl => ?_
  exact hnone c (hc.local_of_off_bus fun hon => hoff ⟨hon.1, hl.symm.trans hon.2⟩) hl

/-- Held copies show the latest write after the cycle. -/
theorem DataInv.step_copy (h : s.DataInv lines flat) (hex : s.Exclusive)
    (hf : FlatStep s cpu flat flat') {c : Core pw} {a : Word} (hq : lines (lineOf a))
    (hst : (s.step cpu).1.lineState c a ≠ .I) :
    (s.step cpu).1.payload c a = flat' (lineOf a) := by
  by_cases hon : s.OnBus cpu a
  · cases hw : s.winner cpu with
    | none => exact absurd hon (not_onBus_of_no_winner hw a)
    | some w =>
      have ha := (onBus_iff_of_winner hw a).mp hon
      obtain ⟨txn, hreq, hbus⟩ := bus_of_winner hw
      by_cases hc : c = w
      · subst hc
        rw [step_payload_winner hw hst, if_pos ha]
        cases hwe : (cpu c).we with
        | true =>
          rw [if_pos rfl, ha]
          exact (hf.written c ⟨done_winner hw, hwe⟩).symm
        | false =>
          rw [if_neg (by decide), hf.eq_of_read hw hwe ha, ha]
          cases hreq with
          | read hreq hwe' hI => exact h.supplyData_eq hw (ha ▸ hq) hI
          | fetch hreq hwe' hI => rw [hwe] at hwe'; cases hwe'
          | upgrade hreq hwe' hS => rw [hwe] at hwe'; cases hwe'
      · -- a peer keeps a copy only of a line that is being read
        rw [step_on_bus_peer hw hc ha, hbus] at hst
        have hold : s.lineState c a ≠ .I := by
          intro hI
          rw [hI, snoopNextState_I] at hst
          exact hst rfl
        have hlocal : ¬ (s.WritesLocally cpu c ∧ lineOf a = lineOf (cpu c).addr) := by
          rintro ⟨hloc, hl⟩
          exact hloc.off_bus ((onBus_iff_of_winner hw _).mpr (hl.symm.trans ha))
        rw [step_payload_peer (winner_ne hw hc) hold, if_neg hlocal, h.copy c a hq hold]
        cases hreq with
        | read hreq hwe hI => exact (hf.eq_of_read hw hwe ha).symm
        | fetch => simp [snoopNextState, hold] at hst
        | upgrade => simp [snoopNextState, hold] at hst
  · have hold := held_of_step_off_bus hon hst
    -- a write hit of another core would have excluded this copy
    have honly : ∀ d, s.WritesLocally cpu d → lineOf (cpu d).addr = lineOf a → d = c := by
      intro d hd hl
      by_contra hdc
      exact hold (hex a d c hdc (hd.held hl.symm))
    by_cases hw : s.winner cpu = some c
    · have hl : lineOf a ≠ lineOf (cpu c).addr := fun hl => hon ((onBus_iff_of_winner hw a).mpr hl)
      rw [step_payload_winner hw hst, if_neg hl, h.copy c a hq hold]
      refine (hf.eq_of_no_hit hon fun d hd hda => ?_).symm
      exact hl ((honly d hd hda) ▸ hda.symm)
    · rw [step_payload_peer hw hold]
      by_cases hloc : s.WritesLocally cpu c ∧ lineOf a = lineOf (cpu c).addr
      · rw [if_pos hloc, hloc.2]
        exact (hf.written c (writesDone_iff.mpr (Or.inr ⟨hw, hloc.1⟩))).symm
      · rw [if_neg hloc, h.copy c a hq hold]
        refine (hf.eq_of_no_hit hon fun d hd hda => ?_).symm
        have hdc := honly d hd hda
        subst hdc
        exact hloc ⟨hd, hda.symm⟩

/-- A fetched dirty line is written back; every other memory word stays. -/
theorem step_mem (a : Word) :
    (s.step cpu).1.mem (midx a) =
      if s.memWrEn cpu = true ∧ midx a = midx (s.bus cpu).addr then (s.aggDirty cpu).getD 0
      else s.mem (midx a) := by
  have hmem : (s.step cpu).1.mem = s.memNext cpu := rfl
  rw [hmem, memNext]
  by_cases hen : s.memWrEn cpu = true
  · by_cases hi : midx a = midx (s.bus cpu).addr
    · simp [hen, hi]
    · simp [hen, hi]
  · simp [hen]

/-- Memory shows the latest write of a clean line after the cycle. -/
theorem DataInv.step_memory (h : s.DataInv lines flat)
    (hreq : ∀ c, (cpu c).req = true → lines (lineOf (cpu c).addr))
    (hinj : ∀ a b, lines (lineOf a) → lines (lineOf b) → midx a = midx b → lineOf a = lineOf b)
    (hrep : s.NoDirtyReplaced cpu) (hf : FlatStep s cpu flat flat') {a : Word}
    (hq : lines (lineOf a)) (hclean : ∀ c, (s.step cpu).1.lineState c a ≠ .M) :
    (s.step cpu).1.mem (midx a) = flat' (lineOf a) := by
  rw [step_mem]
  by_cases hon : s.OnBus cpu a
  · cases hw : s.winner cpu with
    | none => exact absurd hon (not_onBus_of_no_winner hw a)
    | some w =>
      have ha := (onBus_iff_of_winner hw a).mp hon
      obtain ⟨txn, hr, hbus⟩ := bus_of_winner hw
      have hwin := hclean w
      rw [step_on_bus_winner hw ha] at hwin
      cases hr with
      | fetch hr hwe hI => simp [hwe] at hwin
      | upgrade hr hwe hS => simp [hwe] at hwin
      | read hr hwe hI =>
        rw [hf.eq_of_read hw hwe ha, ha, ← h.supplyData_eq hw (ha ▸ hq) hI]
        have hen : s.memWrEn cpu = (s.aggDirty cpu).isSome := by simp [memWrEn, isFetch, hbus]
        have hmidx : midx a = midx (s.bus cpu).addr := midx_congr hon.2
        unfold supplyData
        rw [hen, hmidx]
        cases s.aggDirty cpu with
        | none => simp
        | some d => simp
  · -- the line was clean, and the word written back is another one
    have hold : ∀ c, s.lineState c a ≠ .M := fun c hM => hclean c (hrep.dirty_off_bus hon hM)
    have hkeep : ¬ (s.memWrEn cpu = true ∧ midx a = midx (s.bus cpu).addr) := by
      rintro ⟨hen, hmidx⟩
      cases hw : s.winner cpu with
      | none => simp [memWrEn, isFetch, bus_of_no_winner hw] at hen
      | some w =>
        obtain ⟨txn, hr, hbus⟩ := bus_of_winner hw
        have hqw : lines (lineOf (cpu w).addr) := hreq w hr.req_eq_true
        rw [hbus] at hmidx
        exact hon ((onBus_iff_of_winner hw a).mpr (hinj a _ hq hqw hmidx))
    rw [if_neg hkeep, h.memory a hq hold]
    refine (hf.eq_of_no_hit hon fun c hc hl => ?_).symm
    -- a completed write hit would leave the line dirty
    by_cases hw : s.winner cpu = some c
    · exact hc.off_bus ((onBus_iff_of_winner hw _).mpr rfl)
    · refine hclean c ?_
      rw [step_lineState_peer hw, if_neg hon, if_pos ⟨hc, hl.symm⟩]

theorem DataInv.step (h : s.DataInv lines flat) (hex : s.Exclusive)
    (hreq : ∀ c, (cpu c).req = true → lines (lineOf (cpu c).addr))
    (hinj : ∀ a b, lines (lineOf a) → lines (lineOf b) → midx a = midx b → lineOf a = lineOf b)
    (hrep : s.NoDirtyReplaced cpu) (hf : FlatStep s cpu flat flat') :
    (s.step cpu).1.DataInv lines flat' :=
  ⟨fun _ _ hq hst => h.step_copy hex hf hq hst,
    fun _ hq hclean => h.step_memory hreq hinj hrep hf hq hclean⟩

/-- A completed read returns the value its line shows before the cycle. -/
theorem DataInv.rdata_eq (h : s.DataInv lines flat) {c : Core pw} (hdone : s.done cpu c = true)
    (hwe : (cpu c).we = false) (hq : lines (lineOf (cpu c).addr)) :
    s.rdata cpu c = flat (lineOf (cpu c).addr) := by
  by_cases hw : s.winner cpu = some c
  · obtain ⟨txn, hr, -⟩ := bus_of_winner hw
    have hrd : s.rdata cpu c = s.supplyData cpu := by
      simp [rdata, L1.cpuRdata, grant_eq_true_iff.mpr hw, hwe]
    rw [hrd]
    cases hr with
    | read hr hwe' hI => exact h.supplyData_eq hw hq hI
    | fetch hr hwe' hI => rw [hwe] at hwe'; cases hwe'
    | upgrade hr hwe' hS => rw [hwe] at hwe'; cases hwe'
  · have hread : L1.localReadDone (s.l1 c) (cpu c) = true := by
      rcases (done_peer_iff hw).mp hdone with hread | hloc
      · exact hread
      · rw [hloc.request.2] at hwe
        cases hwe
    have hrd : s.rdata cpu c = s.payload c (cpu c).addr := by
      simp [rdata, L1.cpuRdata, grant_eq_false_iff.mpr hw, hread, payload]
    rw [hrd]
    exact h.copy c _ hq ((L1.localReadDone_iff _ _).mp hread).2.2

theorem dataInv_reset (s : MesiTop pw) (lines : Word → Prop) :
    s.reset.DataInv lines fun _ => 0 := by
  refine ⟨fun c a _ hst => absurd (reset_lineState s c a) hst, fun a _ _ => rfl⟩

end MesiTop

/-- The writes that complete in a cycle, as line and value, by core index. -/
def completedWrites (cpu : CpuPorts pw) (o : CpuOuts pw) : List (Word × Word) :=
  (List.finRange (2 ^ pw)).filterMap fun c =>
    if o.done c && (cpu c).we then some (lineOf (cpu c).addr, (cpu c).wdata) else none

/-- The value of the latest write to a line, 0 if there is none. -/
def latestWrite (ws : List (Word × Word)) (line : Word) : Word :=
  ((ws.filter (fun w => w.1 = line)).getLast?.map Prod.snd).getD 0

/-- The writes completed along a run, cycle by cycle. -/
def writesOf (s : MesiTop pw) (cpus : List (CpuPorts pw)) : List (Word × Word) :=
  (List.zipWith completedWrites cpus ((MesiTop.machine pw).outputs s cpus)).flatten

theorem latestWrite_append_of_mem {ws cw : List (Word × Word)} {l v : Word} (hmem : (l, v) ∈ cw)
    (honly : ∀ v', (l, v') ∈ cw → v' = v) : latestWrite (ws ++ cw) l = v := by
  have hne : cw.filter (fun w => w.1 = l) ≠ [] :=
    List.ne_nil_of_mem (List.mem_filter.mpr ⟨hmem, by simp⟩)
  unfold latestWrite
  rw [List.filter_append, List.getLast?_append_of_ne_nil _ hne,
    List.getLast?_eq_some_getLast hne, Option.map_some, Option.getD_some]
  obtain ⟨hlast, hline⟩ := List.mem_filter.mp (List.getLast_mem hne)
  generalize (cw.filter (fun w => w.1 = l)).getLast hne = w at hlast hline
  obtain ⟨l', v'⟩ := w
  obtain rfl : l' = l := of_decide_eq_true hline
  exact honly v' hlast

theorem latestWrite_append_of_notMem {ws cw : List (Word × Word)} {l : Word}
    (hnone : ∀ v, (l, v) ∉ cw) : latestWrite (ws ++ cw) l = latestWrite ws l := by
  have hnil : cw.filter (fun w => w.1 = l) = [] := by
    rw [List.filter_eq_nil_iff]
    rintro ⟨l', v⟩ hmem hl
    obtain rfl : l' = l := of_decide_eq_true hl
    exact hnone v hmem
  unfold latestWrite
  rw [List.filter_append, hnil, List.append_nil]

theorem writesOf_append (s : MesiTop pw) (cpus : List (CpuPorts pw)) (cpu : CpuPorts pw) :
    writesOf s (cpus ++ [cpu]) = writesOf s cpus ++
      completedWrites cpu (((MesiTop.machine pw).run s cpus).outs cpu) := by
  have hlen : ∀ (cpus : List (CpuPorts pw)) (s : MesiTop pw),
      cpus.length = ((MesiTop.machine pw).outputs s cpus).length := by
    intro cpus
    induction cpus with
    | nil => intro s; rfl
    | cons cpu cpus ih => intro s; simp [← ih]
  unfold writesOf
  rw [Machine.outputs_append, List.zipWith_append (hlen cpus s), List.flatten_append]
  exact congrArg _ (List.append_nil _)

namespace MesiTop

variable {s : MesiTop pw} {cpu : CpuPorts pw}

theorem mem_completedWrites {l v : Word} :
    (l, v) ∈ completedWrites cpu (s.outs cpu) ↔
      ∃ c, s.WritesDone cpu c ∧ lineOf (cpu c).addr = l ∧ (cpu c).wdata = v := by
  unfold completedWrites WritesDone outs
  simp [and_assoc]

/-- The latest writes move as the completed writes of the cycle say. -/
theorem Exclusive.flatStep (hex : s.Exclusive) (ws : List (Word × Word)) :
    FlatStep s cpu (latestWrite ws)
      (latestWrite (ws ++ completedWrites cpu (s.outs cpu))) := by
  constructor
  · intro c hc
    refine latestWrite_append_of_mem (mem_completedWrites.mpr ⟨c, hc, rfl, rfl⟩) ?_
    intro v' hv'
    obtain ⟨d, hd, hl, rfl⟩ := mem_completedWrites.mp hv'
    rw [hex.writesDone_unique hd hc hl]
  · intro l hnone
    refine latestWrite_append_of_notMem fun v hv => ?_
    obtain ⟨c, hc, hl, -⟩ := mem_completedWrites.mp hv
    exact hnone c hc hl

/-- The requests of a cycle are on the given lines, and no dirty line is replaced. -/
def Allowed (lines : Word → Prop) (s : MesiTop pw) (cpu : CpuPorts pw) : Prop :=
  (∀ c, (cpu c).req = true → lines (lineOf (cpu c).addr)) ∧ s.NoDirtyReplaced cpu

/-- The data-value invariant along runs, on lines with different memory indices. -/
theorem dataInv_run (powerUp : MesiTop pw) {lines : Word → Prop}
    (hinj : ∀ a b, lines (lineOf a) → lines (lineOf b) → midx a = midx b → lineOf a = lineOf b)
    (cpus : List (CpuPorts pw)) (h : (machine pw).AllSteps (Allowed lines) powerUp.reset cpus) :
    ((machine pw).run powerUp.reset cpus).DataInv lines
      (latestWrite (writesOf powerUp.reset cpus)) := by
  induction cpus using List.reverseRecOn with
  | nil => exact dataInv_reset powerUp lines
  | append_singleton cpus cpu ih =>
    rw [Machine.allSteps_append] at h
    obtain ⟨hpre, ⟨hreq, hrep⟩, -⟩ := h
    have hex := exclusive_run powerUp cpus
    rw [Machine.run_append, writesOf_append]
    exact (ih hpre).step hex hreq hinj hrep (hex.flatStep _)

/-- Every request is below 64 KiB, and a grant replaces no other dirty line. -/
def LowAndClean (s : MesiTop pw) (cpu : CpuPorts pw) : Prop :=
  (∀ c, (cpu c).req = true → (cpu c).addr.toNat < 2 ^ 16) ∧ s.NoDirtyReplaced cpu

instance (s : MesiTop pw) (cpu : CpuPorts pw) : Decidable (s.LowAndClean cpu) :=
  inferInstanceAs (Decidable (_ ∧ _))

/-- **The last-write rule.** In every run from reset whose requests are below 64 KiB and
    whose grants replace no other dirty line: a read that completes in a cycle returns
    the latest write to its line that completed in an earlier cycle, or 0, and no two
    writes to one line complete in the same cycle. -/
theorem reads_latest_write (pw : ℕ) (powerUp : MesiTop pw) (cpus : List (CpuPorts pw))
    (h : (machine pw).AllSteps LowAndClean powerUp.reset cpus) :
    ∀ pre cpu, pre ++ [cpu] <+: cpus →
      let s := (machine pw).run powerUp.reset pre
      (∀ c, s.done cpu c = true → (cpu c).we = false →
        s.rdata cpu c = latestWrite (writesOf powerUp.reset pre) (lineOf (cpu c).addr)) ∧
      ∀ c d, s.WritesDone cpu c → s.WritesDone cpu d →
        lineOf (cpu c).addr = lineOf (cpu d).addr → c = d := by
  rintro pre cpu ⟨rest, rfl⟩ s
  -- below 64 KiB the memory index is injective on lines
  have hlow : ∀ a : Word, (lineOf a).toNat < 2 ^ 16 ↔ a.toNat < 2 ^ 16 := by
    intro a
    rw [lineOf_toNat]
    omega
  have hinj : ∀ a b : Word, (lineOf a).toNat < 2 ^ 16 → (lineOf b).toNat < 2 ^ 16 →
      midx a = midx b → lineOf a = lineOf b := by
    intro a b ha hb hab
    rw [hlow] at ha hb
    rw [← BitVec.toNat_inj, midx_toNat, midx_toNat] at hab
    rw [lineOf_eq_iff]
    omega
  have hC : (machine pw).AllSteps (Allowed fun l => l.toNat < 2 ^ 16) powerUp.reset
      (pre ++ [cpu] ++ rest) := by
    refine h.mono _ fun s cpu hc => ⟨fun c hreq => (hlow _).mpr (hc.1 c hreq), hc.2⟩
  rw [Machine.allSteps_append, Machine.allSteps_append] at hC
  obtain ⟨⟨hpre, ⟨hreq, -⟩, -⟩, -⟩ := hC
  have hdata := dataInv_run powerUp hinj pre hpre
  refine ⟨fun c hdone hwe => hdata.rdata_eq hdone hwe (hreq c ?_), fun c d hc hd hl => ?_⟩
  · exact done_request hdone
  · exact (exclusive_run powerUp pre).writesDone_unique hc hd hl

/-- The CPU ports of a cycle in which only the listed cores request something. -/
def ports (reqs : List (Core pw × CpuIn)) : CpuPorts pw := fun c =>
  (reqs.lookup c).getD ⟨false, false, 0, 0⟩

/-- Four caches with all-zero arrays. -/
def blank : MesiTop 2 := ⟨fun _ => ⟨fun _ => 0, fun _ => .I, fun _ => 0⟩, 0, fun _ => 0, .zero 2⟩

/-- Core 0 writes a line while core 1 asks to read it. -/
def writeCycle : CpuPorts 2 :=
  ports [(0, ⟨true, true, 0x1000#32, 7⟩), (1, ⟨true, false, 0x1004#32, 0⟩)]

/-- Both cores read the line. -/
def readCycle : CpuPorts 2 :=
  ports [(0, ⟨true, false, 0x1000#32, 0⟩), (1, ⟨true, false, 0x1004#32, 0⟩)]

theorem readCycle_latest_write :
    let s := (machine 2).run blank.reset [writeCycle]
    s.done readCycle 1 = true ∧
    s.rdata readCycle 1 = latestWrite (writesOf blank.reset [writeCycle]) 0x1000#32 ∧
    s.rdata readCycle 1 = 7 := by
  intro s
  have hdone : s.done readCycle 1 = true := by decide +kernel
  have hread := reads_latest_write 2 blank [writeCycle, readCycle] (by decide +kernel)
    [writeCycle] readCycle (List.prefix_refl _)
  exact ⟨hdone, hread.1 1 hdone rfl, by decide +kernel⟩

end MesiTop

end MesiCoherence.Rtl
