import EnigmaRelay.Model.PullSteps

open Std Machine

namespace EnigmaRelay.SledStore

section Alone

variable [Base64]

def paged (recipient : String) (quota : Tree QuotaValue) (found : Result (List QueueMessage × Bool)) : Result PullBatch :=
  found.map (fun page =>
    { items := page.1
      nextCursor := if page.2 then page.1.getLast?.map (fun item => encodeCursor recipient item.arrivalSeq) else none
      remainingEstimate := saturatingSub (readQuota quota recipient).count page.1.length })

def PullRun.alone (store : SledStore) (operations : Nat) (run : PullRun) : PullRun :=
  (fun current : PullRun => current.step store)^[operations] run

theorem PullRun.alone_succ (store : SledStore) (operations : Nat) (run : PullRun) :
    run.alone store (operations + 1) = (run.step store).alone store operations :=
  Function.iterate_succ_apply _ _ _

theorem PullRun.step_moves (run : PullRun) (store : SledStore) :
    ∃ last items phase, run.step store = { run with last := last, items := items, phase := phase } := by
  unfold PullRun.step
  split
  · split
    · exact ⟨_, _, _, rfl⟩
    · split
      · exact ⟨_, _, _, rfl⟩
      · exact ⟨_, _, _, rfl⟩
      · split
        · exact ⟨_, _, _, rfl⟩
        · split
          · exact ⟨_, _, _, rfl⟩
          · split <;> exact ⟨_, _, _, rfl⟩
  · exact ⟨_, _, _, rfl⟩
  · exact ⟨_, _, _, rfl⟩

theorem pullScan_alone {store : SledStore} {entries : List (Bytes × QueueMessage)} {run : PullRun}
    (phase : run.phase = .scan)
    (rest : (scanPrefix store.messages (messagePrefix run.recipient)).filter
      (fun entry => LiveScan.beyond compare run.last entry.1) = entries) :
    ∃ operations, (run.alone store operations).phase =
      .finished (paged run.recipient store.quota (pullScan run.start run.limit run.nowMs entries run.items)) := by
  have sorted : (scanPrefix store.messages (messagePrefix run.recipient)).Pairwise
      (fun a b => compare a.1 b.1 = .lt) := (OrderedMap.toList_sorted store.messages).filter _
  induction entries generalizing run with
  | nil =>
    have ended : nextUnder store.messages (messagePrefix run.recipient) run.last = none := by
      rw [nextUnder, LiveScan.next, ← List.head?_filter, rest, List.head?_nil]
    refine ⟨2, ?_⟩
    simp only [PullRun.alone, Function.iterate_succ_apply, Function.iterate_zero_apply, PullRun.step, phase, ended]
    rfl
  | cons entry later ih =>
    obtain ⟨key, msg⟩ := entry
    have yields : nextUnder store.messages (messagePrefix run.recipient) run.last = some (key, msg) := by
      rw [nextUnder, LiveScan.next, ← List.head?_filter, rest, List.head?_cons]
    have onward := LiveScan.ahead_tail sorted rest
    -- whatever the entry is, the scan goes on behind it
    have passed : ∀ items, run.step store = { run with last := some key, items := items } →
        ∃ operations, (run.alone store operations).phase =
          .finished (paged run.recipient store.quota (pullScan run.start run.limit run.nowMs later items)) := by
      intro items stepped
      obtain ⟨operations, reached⟩ := @ih { run with last := some key, items := items } phase onward sorted
      exact ⟨operations + 1, by rw [PullRun.alone_succ, stepped, reached]⟩
    rw [pullScan]
    cases parsed : parseSeqFromKey key with
    | error err =>
      refine ⟨1, ?_⟩
      simp only [PullRun.alone, Function.iterate_one, PullRun.step, phase, yields, parsed]
      rfl
    | ok number =>
      cases number with
      | none =>
        apply passed
        simp only [PullRun.step, phase, yields, parsed]
      | some seq =>
        dsimp only
        by_cases behind : run.start.any (seq ≤ ·) = true
        · rw [if_pos behind]
          apply passed
          simp only [PullRun.step, phase, yields, parsed, if_pos behind]
        · rw [if_neg behind]
          by_cases late : msg.deadlineMs ≤ run.nowMs
          · rw [if_pos late]
            apply passed
            simp only [PullRun.step, phase, yields, parsed, if_neg behind, if_pos late]
          · rw [if_neg late]
            by_cases room : run.items.length < run.limit
            · rw [if_pos room]
              apply passed
              simp only [PullRun.step, phase, yields, parsed, if_neg behind, if_neg late, if_pos room]
            · rw [if_neg room]
              refine ⟨2, ?_⟩
              simp only [PullRun.alone, Function.iterate_succ_apply, Function.iterate_zero_apply, PullRun.step, phase,
                yields, parsed, if_neg behind, if_neg late, if_neg room]
              rfl

/-- Left alone, the operations of a pull come to an end and answer what the whole method does. -/
theorem pull_alone (recipient : String) (cursor : Option String) (limit nowMs : Nat) (store : SledStore) :
    ∃ operations, ((PullRun.begin recipient cursor limit nowMs).alone store operations).phase =
      .finished (pull recipient cursor limit nowMs store).1 := by
  cases started : startSeq recipient cursor with
  | error err =>
    refine ⟨0, ?_⟩
    simp only [PullRun.alone, Function.iterate_zero_apply, PullRun.begin, pull, started]
  | ok start =>
    have whole : (scanPrefix store.messages (messagePrefix recipient)).filter
        (fun entry => LiveScan.beyond compare none entry.1) = scanPrefix store.messages (messagePrefix recipient) :=
      List.filter_eq_self.mpr (fun _ _ => rfl)
    obtain ⟨operations, reached⟩ := @pullScan_alone _ store _
      { recipient := recipient, start := start, limit := min limit u32Max, nowMs := nowMs } rfl whole
    refine ⟨operations, ?_⟩
    simp only [PullRun.begin, pull, started, reached]
    cases pullScan start (min limit u32Max) nowMs (scanPrefix store.messages (messagePrefix recipient)) [] <;> rfl

theorem PullRun.finishes (run : PullRun) (store : SledStore) :
    ∃ operations result, (run.alone store operations).phase = .finished result := by
  cases phase : run.phase with
  | scan =>
    obtain ⟨operations, reached⟩ := @pullScan_alone _ store _ run phase rfl
    exact ⟨operations, _, reached⟩
  | readQuota more =>
    refine ⟨1, paged run.recipient store.quota (.ok (run.items, more)), ?_⟩
    simp only [PullRun.alone, Function.iterate_one, PullRun.step, phase]
    rfl
  | finished result => exact ⟨0, result, phase⟩

end Alone

end EnigmaRelay.SledStore
