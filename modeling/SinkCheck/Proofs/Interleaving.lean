import Mathlib
import SinkCheck.Proofs.Reported

/-!
# Classes visited side by side

Every class has a worker of its own, and all workers record into one collector. A schedule names the workers in
the order in which they act. Whatever the schedule, the workers come to the reports of the scan, and the
collector receives the findings of the scan, those of one class in their order.
-/

namespace SinkCheck

/-! ## Workers -/

structure Worker where
  rest : List Action
  report : ClassReport

namespace Worker

def act (w : Worker) : Worker :=
  match w.rest with
  | [] => w
  | a :: rest => ⟨rest, w.report.after a⟩

def next? (w : Worker) : Option Finding :=
  w.rest.head?.bind Action.finding?

def finish (w : Worker) : Worker :=
  ⟨[], w.rest.foldl ClassReport.after w.report⟩

theorem act_iterate (w : Worker) (n : Nat) :
    act^[n] w = ⟨w.rest.drop n, (w.rest.take n).foldl ClassReport.after w.report⟩ := by
  induction n generalizing w with
  | zero => simp
  | succ n ih =>
    obtain ⟨rest, report⟩ := w
    rw [Function.iterate_succ_apply, ih]
    cases rest with
    | nil => simp [act]
    | cons a rest => simp [act]

theorem act_iterate_of_le {w : Worker} {n : Nat} (h : w.rest.length ≤ n) : act^[n] w = w.finish := by
  rw [act_iterate, List.drop_of_length_le h, List.take_of_length_le h, finish]

end Worker

/-! ## Crews -/

theorem Collector.toList_foldl_record (c : Collector) (fs : List Finding) :
    (fs.foldl record c).toList = c.toList ++ fs := by
  induction fs generalizing c with
  | nil => simp
  | cons f fs ih =>
    rw [List.foldl_cons, ih]
    simp [record, toList]

structure Crew where
  workers : List Worker
  shared : Collector

namespace Crew

def next? (k : Crew) (i : Nat) : Option Finding :=
  k.workers[i]?.bind Worker.next?

def step (k : Crew) (i : Nat) : Crew :=
  ⟨k.workers.modify i Worker.act, (k.next? i).toList.foldl Collector.record k.shared⟩

def run (k : Crew) (schedule : List Nat) : Crew :=
  schedule.foldl step k

def arrivals : Crew → List Nat → List (Nat × Finding)
  | _, [] => []
  | k, i :: schedule => (k.next? i).toList.map (i, ·) ++ arrivals (k.step i) schedule

def Finished (k : Crew) : Prop :=
  ∀ w ∈ k.workers, w.rest = []

instance (k : Crew) : Decidable k.Finished :=
  inferInstanceAs (Decidable (∀ w ∈ k.workers, w.rest = []))

def reports (k : Crew) : List ClassReport :=
  k.workers.map Worker.report

section
variable (k : Crew) (schedule : List Nat)

theorem run_cons (i : Nat) : k.run (i :: schedule) = (k.step i).run schedule := rfl

theorem run_append (later : List Nat) : k.run (schedule ++ later) = (k.run schedule).run later :=
  List.foldl_append

theorem workers_step (i j : Nat) :
    (k.step i).workers[j]? = k.workers[j]?.map fun w => if i = j then w.act else w := by
  rw [step, List.getElem?_modify]
  rfl

/-- How far a worker is depends on how often it was its turn, and on nothing that the others do. -/
theorem workers_run (i : Nat) :
    (k.run schedule).workers[i]? = k.workers[i]?.map (Worker.act^[schedule.count i]) := by
  induction schedule generalizing k with
  | nil => simp [run]
  | cons j schedule ih =>
    rw [run_cons, ih, workers_step]
    by_cases h : j = i
    · simp [h, Function.comp_def]
    · -- the turn of another worker
      simp [h]

theorem toList_run :
    (k.run schedule).shared.toList = k.shared.toList ++ (k.arrivals schedule).map Prod.snd := by
  induction schedule generalizing k with
  | nil => simp [run, arrivals]
  | cons i schedule ih =>
    rw [run_cons, ih, step, Collector.toList_foldl_record, arrivals, List.map_append, List.map_map, List.append_assoc]
    congr 2
    simp [Function.comp_def]

theorem lt_of_mem_arrivals {p : Nat × Finding} (hp : p ∈ k.arrivals schedule) : p.1 < k.workers.length := by
  induction schedule generalizing k with
  | nil => cases hp
  | cons i schedule ih =>
    rw [arrivals, List.mem_append] at hp
    rcases hp with hp | hp
    · simp only [List.mem_map, Option.mem_toList, next?, Option.bind_eq_some_iff] at hp
      obtain ⟨f, ⟨w, hw, -⟩, rfl⟩ := hp
      exact (List.getElem?_eq_some_iff.mp hw).1
    · have := ih _ hp
      simpa [step] using this

theorem arrivals_of_worker {i : Nat} {w : Worker} (hw : k.workers[i]? = some w) :
    ((k.arrivals schedule).filter (·.1 = i)).map Prod.snd =
      (w.rest.take (schedule.count i)).filterMap Action.finding? := by
  induction schedule generalizing k w with
  | nil => simp [arrivals]
  | cons j schedule ih =>
    have hstep := k.workers_step j i
    rw [hw, Option.map_some] at hstep
    rw [arrivals, List.filter_append, List.map_append, ih _ hstep]
    -- the filter keeps the first arrival only if it comes from this worker
    by_cases h : j = i
    · subst h
      obtain ⟨rest, report⟩ := w
      rw [next?, hw]
      cases rest with
      | nil => simp [Worker.act, Worker.next?]
      | cons a rest =>
        cases hf : a.finding? with
        | none => simp [Worker.act, Worker.next?, hf]
        | some f => simp [Worker.act, Worker.next?, hf]
    · simp [h]

theorem finished_run :
    (k.run schedule).Finished ↔ ∀ i w, k.workers[i]? = some w → w.rest.length ≤ schedule.count i := by
  constructor
  · intro h i w hw
    have hrun := k.workers_run schedule i
    rw [hw, Option.map_some, Worker.act_iterate] at hrun
    exact List.drop_eq_nil_iff.mp (h _ (List.mem_of_getElem? hrun))
  · intro h w hw
    obtain ⟨i, hi⟩ := List.mem_iff_getElem?.mp hw
    rw [workers_run, Option.map_eq_some_iff] at hi
    obtain ⟨w₀, hw₀, rfl⟩ := hi
    rw [Worker.act_iterate_of_le (h i w₀ hw₀)]
    rfl

end

/-! ## One after the other -/

def inTurn (n : Nat) : List Worker → List Nat
  | [] => []
  | w :: ws => List.replicate w.rest.length n ++ inTurn (n + 1) ws

theorem run_replicate (front back : List Worker) (w : Worker) (shared : Collector) :
    run ⟨front ++ w :: back, shared⟩ (List.replicate w.rest.length front.length) =
      ⟨front ++ w.finish :: back, (w.rest.filterMap Action.finding?).foldl Collector.record shared⟩ := by
  obtain ⟨rest, report⟩ := w
  induction rest generalizing report shared with
  | nil => rfl
  | cons a rest ih =>
    have hstep : step ⟨front ++ ⟨a :: rest, report⟩ :: back, shared⟩ front.length =
        ⟨front ++ ⟨rest, report.after a⟩ :: back, a.finding?.toList.foldl Collector.record shared⟩ := by
      simp [step, next?, Worker.next?, Worker.act, List.modify_eq_set_getElem?]
    rw [List.length_cons, List.replicate_succ, run_cons, hstep, ih]
    cases hf : a.finding? <;> simp [hf, Worker.finish]

theorem run_inTurn (front back : List Worker) (shared : Collector) :
    run ⟨front ++ back, shared⟩ (inTurn front.length back) = ⟨front ++ back.map Worker.finish,
      (back.flatMap fun w => w.rest.filterMap Action.finding?).foldl Collector.record shared⟩ := by
  induction back generalizing front shared with
  | nil => simp [inTurn, run]
  | cons w back ih =>
    have hnext := ih (front ++ [w.finish]) ((w.rest.filterMap Action.finding?).foldl Collector.record shared)
    rw [List.length_append, List.length_singleton, List.append_assoc, List.singleton_append] at hnext
    rw [inTurn, run_append, run_replicate, hnext]
    simp

end Crew

/-- What is sorted by number into lists is a permutation of those lists put together. -/
theorem perm_flatMap_of_filter {α β : Type} {f : α → List β} {as : List α} {log : List (Nat × β)}
    (hlt : ∀ p ∈ log, p.1 < as.length) (h : ∀ i a, as[i]? = some a → (log.filter (·.1 = i)).map Prod.snd = f a) :
    (log.map Prod.snd).Perm (as.flatMap f) := by
  induction as using List.reverseRecOn generalizing log with
  | nil =>
    have hnil : log = [] := List.eq_nil_iff_forall_not_mem.mpr fun p hp => by simpa using hlt p hp
    rw [hnil]
    rfl
  | append_singleton as a ih =>
    -- the entries of the last list are taken out, the others are sorted already
    have hlast : (log.filter (·.1 = as.length)).map Prod.snd = f a := h _ _ (by simp)
    have hrest : ((log.filter fun p => !decide (p.1 = as.length)).map Prod.snd).Perm (as.flatMap f) := by
      apply ih
      · intro p hp
        have hp := List.mem_filter.mp hp
        have hle := hlt p hp.1
        have hne : p.1 ≠ as.length := by simpa using hp.2
        rw [List.length_append, List.length_singleton] at hle
        omega
      · intro i b hb
        have hi := (List.getElem?_eq_some_iff.mp hb).1
        rw [← h i b (by rw [List.getElem?_append_left hi, hb]), List.filter_filter]
        congr 1
        apply List.filter_congr
        intro p _
        by_cases hp : p.1 = i
        · simp [hp, Nat.ne_of_lt hi]
        · simp [hp]
    rw [List.flatMap_append, List.flatMap_singleton, ← hlast]
    have hsplit := ((List.filter_append_perm (·.1 = as.length) log).map Prod.snd).symm
    rw [List.map_append] at hsplit
    exact hsplit.trans (List.perm_append_comm.trans (hrest.append_right _))

/-! ## The crew of a detector -/

namespace Detector

section
variable (d : Detector)

def worker (c : ClassUnit) : Worker :=
  ⟨d.actions c, { owner := c.name }⟩

def crew (cs : List ClassUnit) (shared : Collector) : Crew :=
  ⟨cs.map d.worker, shared⟩

theorem findings_worker (c : ClassUnit) : (d.worker c).rest.filterMap Action.finding? = (d.visit c).findings :=
  (Visit.findings_ofActions c.name (d.actions c)).symm

theorem finish_worker (c : ClassUnit) : (d.worker c).finish.report = (d.visit c).report :=
  rfl

variable (cs : List ClassUnit) (shared : Collector)

theorem workers_crew {i : Nat} {c : ClassUnit} (hc : cs[i]? = some c) :
    (d.crew cs shared).workers[i]? = some (d.worker c) := by
  rw [crew, List.getElem?_map, hc]
  rfl

theorem run_inTurn_crew : (d.crew cs shared).run (Crew.inTurn 0 (cs.map d.worker)) =
    ⟨cs.map fun c => (d.worker c).finish, (d.scanInto cs shared).1⟩ := by
  have hrun := Crew.run_inTurn [] (cs.map d.worker) shared
  simp only [List.length_nil, List.nil_append, List.flatMap_map, List.map_map, findings_worker] at hrun
  rw [crew, hrun, scanInto, List.flatMap_map]
  rfl

section
variable {d cs shared} {schedule : List Nat} (h : ((d.crew cs shared).run schedule).Finished)
include h

theorem length_le_count {i : Nat} {c : ClassUnit} (hc : cs[i]? = some c) :
    (d.worker c).rest.length ≤ schedule.count i :=
  ((d.crew cs shared).finished_run schedule).mp h i _ (d.workers_crew cs shared hc)

theorem reports_of_finished : ((d.crew cs shared).run schedule).reports = (d.scan cs).reports := by
  rw [reports_scan]
  apply List.ext_getElem?
  intro i
  rw [Crew.reports, List.getElem?_map, Crew.workers_run, List.getElem?_map]
  cases hc : cs[i]? with
  | none => simp [crew, hc]
  | some c =>
    rw [d.workers_crew cs shared hc, Option.map_some, Option.map_some, Option.map_some,
      Worker.act_iterate_of_le (length_le_count h hc), finish_worker]

theorem arrivals_of_finished {i : Nat} {c : ClassUnit} (hc : cs[i]? = some c) :
    (((d.crew cs shared).arrivals schedule).filter (·.1 = i)).map Prod.snd = (d.visit c).findings := by
  rw [Crew.arrivals_of_worker _ _ (d.workers_crew cs shared hc), List.take_of_length_le (length_le_count h hc),
    findings_worker]

end

end

/-- **Workers in any order.** However the workers take turns until all have finished, they return the reports of
the scan, and the collector receives as many findings as these count: the findings of the scan in some order,
with those of one class in their own order. Finishing the classes in turn is one such schedule. -/
theorem scan_interleaved (d : Detector) (cs : List ClassUnit) (shared : Collector) :
    (∀ schedule, ((d.crew cs shared).run schedule).Finished →
      let k := (d.crew cs shared).run schedule
      let arrivals := (d.crew cs shared).arrivals schedule
      k.reports = (d.scan cs).reports ∧
      k.shared.toList = shared.toList ++ arrivals.map Prod.snd ∧
      (arrivals.map Prod.snd).Perm (d.scan cs).findings ∧
      (∀ i c, cs[i]? = some c → (arrivals.filter (·.1 = i)).map Prod.snd = (d.visit c).findings) ∧
      k.shared.size = shared.size + (k.reports.map ClassReport.findings).sum) ∧
    ∃ schedule, ((d.crew cs shared).run schedule).Finished ∧
      d.scanInto cs shared =
        (((d.crew cs shared).run schedule).shared, ((d.crew cs shared).run schedule).reports) := by
  refine ⟨?_, Crew.inTurn 0 (cs.map d.worker), ?_, ?_⟩
  · intro schedule h k arrivals
    have hreports : k.reports = (d.scan cs).reports := reports_of_finished h
    have hcollected : k.shared.toList = shared.toList ++ arrivals.map Prod.snd := Crew.toList_run _ _
    have hclass : ∀ i c, cs[i]? = some c → (arrivals.filter (·.1 = i)).map Prod.snd = (d.visit c).findings :=
      fun i c hc => arrivals_of_finished h hc
    have hperm : (arrivals.map Prod.snd).Perm (d.scan cs).findings := by
      rw [findings_scan]
      apply perm_flatMap_of_filter _ hclass
      intro p hp
      simpa [crew] using Crew.lt_of_mem_arrivals _ _ hp
    refine ⟨hreports, hcollected, hperm, hclass, ?_⟩
    have hsum : (k.reports.map ClassReport.findings).sum = (d.scan cs).findings.length := by
      rw [hreports, reports_scan, findings_scan, List.length_flatMap, List.map_map]
      congr 2
      funext c
      exact d.findings_report_visit c
    have hsize := congrArg List.length hcollected
    rw [List.length_append, hperm.length_eq, ← hsum] at hsize
    exact hsize
  · rw [run_inTurn_crew]
    intro w hw
    obtain ⟨c, -, rfl⟩ := List.mem_map.mp hw
    rfl
  · rw [run_inTurn_crew, Crew.reports, List.map_map]
    simp only [scanInto, List.map_map]
    congr 2

end Detector

theorem Sample.worker_batch : console.worker batch =
    ⟨console.methodActions batch batchMethod
      (batchAnalysis.inspectAll {} console.policy console.matchers batchGraph.orderedLocations),
      { owner := "acme/Batch" }⟩ := by
  have hbodies : batch.bodies = [(batchMethod, batchCode)] := rfl
  rw [Detector.worker, Detector.actions, candidates_batch, Detector.runs_eq, hbodies, List.map_singleton,
    List.flatMap_singleton, run_batch]
  rfl

/-- A class is listed twice, and the second of the workers is the first to record its finding. -/
theorem Detector.batches_interleaved :
    let d := Sample.console
    let cs := [Sample.batch, Sample.batch]
    let schedule := [1, 1, 0, 1, 0, 0, 1, 0]
    let k := (d.crew cs {}).run schedule
    let arrivals := (d.crew cs {}).arrivals schedule
    k.Finished ∧ arrivals.map Prod.fst = [1, 0] ∧ k.reports = (d.scan cs).reports ∧
      k.shared.toList = arrivals.map Prod.snd ∧ (arrivals.map Prod.snd).Perm (d.scan cs).findings ∧
      (arrivals.filter (·.1 = 1)).map Prod.snd = (d.visit Sample.batch).findings ∧
      k.shared.size = (k.reports.map ClassReport.findings).sum := by
  intro d cs schedule k arrivals
  have hcrew : d.crew cs {} = ⟨[d.worker Sample.batch, d.worker Sample.batch], {}⟩ := rfl
  have hfinished : k.Finished := by
    show ((d.crew cs {}).run schedule).Finished
    rw [hcrew, Sample.worker_batch]
    decide +kernel
  have htags : arrivals.map Prod.fst = [1, 0] := by
    show ((d.crew cs {}).arrivals schedule).map Prod.fst = _
    rw [hcrew, Sample.worker_batch]
    decide +kernel
  obtain ⟨hreports, hcollected, hperm, hclass, hsize⟩ := (scan_interleaved d cs {}).1 schedule hfinished
  refine ⟨hfinished, htags, hreports, hcollected, hperm, hclass 1 Sample.batch rfl, ?_⟩
  rw [hsize]
  exact Nat.zero_add _

end SinkCheck
