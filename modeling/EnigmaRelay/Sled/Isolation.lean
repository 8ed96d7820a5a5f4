import EnigmaRelay.Foundation.Paging
import EnigmaRelay.Model.Standard
import EnigmaRelay.Sled.Run

open Std Machine

namespace EnigmaRelay.SledStore

abbrev Entry := Bytes × QueueMessage

def seqOf (entry : Entry) : Nat :=
  match parseSeqFromKey entry.1 with
  | .ok (some seq) => seq
  | _ => 0

def Readable (entry : Entry) : Prop := ∃ seq, parseSeqFromKey entry.1 = .ok (some seq)

def wanted (start : Option Nat) (nowMs : Nat) (entry : Entry) : Bool :=
  !start.any (seqOf entry ≤ ·) && live nowMs entry.2

/-- An entry that a scan with room for `limit` messages meets: it is not behind the first one the scan
    has no room for. -/
def Met (start : Option Nat) (nowMs limit : Nat) (entries : List Entry) (entry : Entry) : Prop :=
  ∃ front back, entries = front ++ entry :: back ∧ front.countP (wanted start nowMs) ≤ limit

section Scan

variable (start : Option Nat) (nowMs : Nat)

theorem met_head (limit : Nat) (entry : Entry) (rest : List Entry) : Met start nowMs limit (entry :: rest) entry :=
  ⟨[], rest, rfl, Nat.zero_le _⟩

theorem Met.mem {limit : Nat} {entries : List Entry} {entry : Entry} (met : Met start nowMs limit entries entry) :
    entry ∈ entries := by
  obtain ⟨front, back, rfl, _⟩ := met
  simp

theorem met_skip {limit : Nat} {entry found : Entry} {rest : List Entry} (unwanted : wanted start nowMs entry = false)
    (met : Met start nowMs limit rest found) : Met start nowMs limit (entry :: rest) found := by
  obtain ⟨front, back, rfl, within⟩ := met
  exact ⟨entry :: front, back, rfl, by simpa [unwanted] using within⟩

theorem met_take {limit : Nat} {entry found : Entry} {rest : List Entry}
    (met : Met start nowMs limit rest found) : Met start nowMs (limit + 1) (entry :: rest) found := by
  obtain ⟨front, back, rfl, within⟩ := met
  refine ⟨entry :: front, back, rfl, ?_⟩
  rw [List.countP_cons]
  split <;> omega

theorem Met.tail {limit : Nat} {entry found : Entry} {rest : List Entry}
    (met : Met start nowMs limit (entry :: rest) found) : found = entry ∨
      if wanted start nowMs entry then ∃ left, limit = left + 1 ∧ Met start nowMs left rest found
      else Met start nowMs limit rest found := by
  obtain ⟨front, back, same, within⟩ := met
  cases front with
  | nil =>
    left
    exact (List.cons.inj same).1.symm
  | cons first front =>
    right
    obtain ⟨rfl, rfl⟩ := List.cons.inj same
    rw [List.countP_cons] at within
    split
    · rename_i hit
      rw [if_pos hit] at within
      exact ⟨limit - 1, by omega, front, back, rfl, by omega⟩
    · rename_i unwanted
      rw [if_neg unwanted] at within
      exact ⟨front, back, rfl, within⟩

theorem pullScan_readable {limit : Nat} {entries : List Entry} {items : List QueueMessage}
    (within : items.length ≤ limit)
    (readable : ∀ entry, Met start nowMs (limit - items.length) entries entry → Readable entry) :
    pullScan start limit nowMs entries items =
      .ok (items ++ ((entries.filter (wanted start nowMs)).map Prod.snd).take (limit - items.length),
        decide (limit - items.length < (entries.filter (wanted start nowMs)).length)) := by
  induction entries generalizing items with
  | nil => simp [pullScan]
  | cons entry rest ih =>
    obtain ⟨seq, parsed⟩ := readable entry (met_head start nowMs _ entry rest)
    have number : seqOf entry = seq := by rw [seqOf, parsed]
    obtain ⟨key, msg⟩ := entry
    have skipped : wanted start nowMs (key, msg) = false →
        pullScan start limit nowMs rest items = .ok (items ++
          (((key, msg) :: rest).filter (wanted start nowMs) |>.map Prod.snd).take (limit - items.length),
          decide (limit - items.length < (((key, msg) :: rest).filter (wanted start nowMs)).length)) := by
      intro unwanted
      rw [List.filter_cons_of_neg (by simp [unwanted])]
      exact ih within (fun entry met => readable entry (met_skip start nowMs unwanted met))
    rw [pullScan]
    simp only [parsed]
    split
    · rename_i passed
      exact skipped (by rw [wanted, number, passed]; rfl)
    · rename_i ahead
      split
      · rename_i stale
        exact skipped (by simp [wanted, live, Nat.not_lt.mpr stale])
      · rename_i fresh
        have hit : wanted start nowMs (key, msg) = true := by
          simp only [wanted, number, live]
          simpa [ahead] using fresh
        rw [List.filter_cons_of_pos hit]
        split
        · rename_i room
          obtain ⟨left, less⟩ : ∃ left, limit - items.length = left + 1 := ⟨limit - items.length - 1, by omega⟩
          have grown : limit - (items ++ [msg]).length = left := by
            rw [List.length_append, List.length_singleton]
            omega
          have tail := @ih (items ++ [msg]) (by simp; omega) (by
            rw [grown]
            rw [less] at readable
            exact fun entry met => readable entry (met_take start nowMs met))
          rw [tail, grown, less, List.map_cons, List.take_succ_cons, List.append_assoc, List.length_cons]
          simp
        · rename_i full
          have none : limit - items.length = 0 := by omega
          simp [none]

theorem pullScan_page {limit : Nat} {entries : List Entry}
    (readable : ∀ entry, Met start nowMs limit entries entry → Readable entry) :
    pullScan start limit nowMs entries [] =
      .ok (((entries.filter (wanted start nowMs)).map Prod.snd).take limit,
        decide (limit < (entries.filter (wanted start nowMs)).length)) :=
  pullScan_readable start nowMs (Nat.zero_le limit) readable

theorem pullScan_unreadable {limit : Nat} {entries : List Entry} {items : List QueueMessage}
    (within : items.length ≤ limit) (numbered : ∀ entry ∈ entries, parseSeqFromKey entry.1 ≠ .ok none)
    {bad : Entry} (met : Met start nowMs (limit - items.length) entries bad) (unreadable : ¬ Readable bad) :
    ∃ err, pullScan start limit nowMs entries items = .error err := by
  induction entries generalizing items with
  | nil => exact absurd (met.mem start nowMs) List.not_mem_nil
  | cons entry rest ih =>
    have later : ∀ entry ∈ rest, parseSeqFromKey entry.1 ≠ .ok none :=
      fun entry member => numbered entry (List.mem_cons_of_mem _ member)
    have here := numbered entry List.mem_cons_self
    obtain ⟨key, msg⟩ := entry
    rw [pullScan]
    cases parsed : parseSeqFromKey key with
    | error err => exact ⟨err, rfl⟩
    | ok read =>
      cases read with
      | none => exact absurd parsed here
      | some seq =>
        have number : seqOf (key, msg) = seq := by rw [seqOf, parsed]
        have other : bad ≠ (key, msg) := by
          rintro rfl
          exact unreadable ⟨seq, parsed⟩
        have skipped :
            wanted start nowMs (key, msg) = false → ∃ err, pullScan start limit nowMs rest items = .error err := by
          intro unwanted
          have behind := (met.tail start nowMs).resolve_left other
          rw [if_neg (by simp [unwanted])] at behind
          exact ih within later behind
        dsimp only
        split
        · rename_i passed
          exact skipped (by rw [wanted, number, passed]; rfl)
        · rename_i ahead
          split
          · rename_i stale
            exact skipped (by simp [wanted, live, Nat.not_lt.mpr stale])
          · rename_i fresh
            have hit : wanted start nowMs (key, msg) = true := by
              simp only [wanted, number, live]
              simpa [ahead] using fresh
            obtain ⟨left, less, behind⟩ : ∃ left, limit - items.length = left + 1 ∧ Met start nowMs left rest bad := by
              simpa [hit] using (met.tail start nowMs).resolve_left other
            rw [if_pos (by omega)]
            have grown : limit - (items ++ [msg]).length = left := by
              rw [List.length_append, List.length_singleton]
              omega
            exact ih (by simp; omega) later (by rwa [grown])

end Scan

/-- The unexpired messages of a recipient, in key order. -/
def deliverable (recipient : String) (nowMs : Nat) (store : SledStore) : List QueueMessage :=
  (stored store.messages recipient).filter (live nowMs)

def underPrefix (recipient : String) (nowMs : Nat) (store : SledStore) : List QueueMessage :=
  ((scanPrefix store.messages (messagePrefix recipient)).map Prod.snd).filter (live nowMs)

/-- Every entry that a first page's scan meets has a readable number, and none that the page has room
    for belongs to another recipient. -/
structure Undisturbed (recipient : String) (limit nowMs : Nat) (store : SledStore) : Prop where
  readable : ∀ entry : Entry, Met none nowMs limit (scanPrefix store.messages (messagePrefix recipient)) entry →
    Readable entry
  owned : ∀ msg ∈ (underPrefix recipient nowMs store).take limit, msg.recipient = recipient

section

variable [Base64]

variable {recipient : String} {cursor : Option String} {start : Option Nat} {limit nowMs : Nat} {store : SledStore}

theorem pull_scanned {items : List QueueMessage} {more : Bool} (started : startSeq recipient cursor = .ok start)
    (scanned : pullScan start (min limit u32Max) nowMs (scanPrefix store.messages (messagePrefix recipient)) [] =
      .ok (items, more)) :
    pull recipient cursor limit nowMs store =
      (.ok { items := items
             nextCursor := if more then items.getLast?.map (fun item => encodeCursor recipient item.arrivalSeq) else none
             remainingEstimate := saturatingSub (readQuota store.quota recipient).count items.length }, store) := by
  unfold pull
  simp only [started, scanned]

theorem pull_failed {err : EnigmaRelayError} (started : startSeq recipient cursor = .ok start)
    (failed : pullScan start (min limit u32Max) nowMs (scanPrefix store.messages (messagePrefix recipient)) [] =
      .error err) :
    pull recipient cursor limit nowMs store = (.error err, store) := by
  unfold pull
  simp only [started, failed]

end

/-- No stored message is for a recipient with a separator in its name. -/
def Plain (messages : Tree QueueMessage) : Prop :=
  ∀ (key : Bytes) (msg : QueueMessage), messages[key]? = some msg → ':' ∉ msg.recipient.toList

section Trees

variable [UuidText]

theorem prefixed {store : SledStore} (keyed : Keyed store.messages) {entry : Entry}
    (member : entry ∈ store.messages.toList) : (messagePrefix entry.2.recipient).isPrefixOf entry.1 = true := by
  rw [(keyed entry.1 entry.2 (OrderedMap.mem_toList.mp member)).1]
  exact messagePrefix_isPrefixOf _ _ _ _

theorem deliverable_scan {store : SledStore} (keyed : Keyed store.messages) (recipient : String) (nowMs : Nat) :
    deliverable recipient nowMs store =
      (underPrefix recipient nowMs store).filter (fun msg => msg.recipient = recipient) := by
  have own : (store.messages.toList.map Prod.snd).filter (fun msg => msg.recipient = recipient) =
      ((scanPrefix store.messages (messagePrefix recipient)).map Prod.snd).filter
        (fun msg => msg.recipient = recipient) := by
    rw [scanPrefix, List.filter_map, List.filter_map, List.filter_filter]
    congr 1
    apply List.filter_congr
    intro entry member
    by_cases owner : entry.2.recipient = recipient
    · have start := prefixed keyed member
      rw [owner] at start
      simp [owner, start]
    · simp [owner]
  rw [deliverable, stored, own, underPrefix, List.filter_filter, List.filter_filter]
  congr 1
  funext msg
  exact Bool.and_comm _ _

theorem scan_numbered {store : SledStore} (keyed : Keyed store.messages) (start : Bytes) :
    ∀ entry ∈ scanPrefix store.messages start, parseSeqFromKey entry.1 ≠ .ok none := by
  intro entry member
  rw [(keyed entry.1 entry.2 (OrderedMap.mem_toList.mp (List.mem_of_mem_filter member))).1]
  exact parseSeqFromKey_ne_none _ _ _ _

theorem parseSeqFromKey_plain {store : SledStore} (keyed : Keyed store.messages) (plain : Plain store.messages)
    {entry : Entry} (member : entry ∈ store.messages.toList) :
    parseSeqFromKey entry.1 = .ok (some entry.2.arrivalSeq) := by
  have present := OrderedMap.mem_toList.mp member
  obtain ⟨key, bound⟩ := keyed entry.1 entry.2 present
  rw [key]
  exact parseSeqFromKey_messageKey (plain entry.1 entry.2 present) bound _ _

theorem scanPrefix_plain {store : SledStore} (keyed : Keyed store.messages) (plain : Plain store.messages)
    {recipient : String} (own : ':' ∉ recipient.toList) :
    scanPrefix store.messages (messagePrefix recipient) =
      store.messages.toList.filter (fun entry => entry.2.recipient = recipient) := by
  apply List.filter_congr
  intro entry member
  have start := prefixed keyed member
  by_cases owner : entry.2.recipient = recipient
  · rw [owner] at start
    simp [owner, start]
  · have present := OrderedMap.mem_toList.mp member
    have foreign : (messagePrefix recipient).isPrefixOf entry.1 = false := by
      rw [Bool.eq_false_iff]
      intro starts
      rw [(keyed entry.1 entry.2 present).1] at starts
      exact owner (messagePrefix_plain own (plain entry.1 entry.2 present) starts).symm
    simp [owner, foreign]

/-- Recipients without separators do not disturb one another. -/
theorem undisturbed_of_plain {store : SledStore} (keyed : Keyed store.messages) (plain : Plain store.messages)
    {recipient : String} (own : ':' ∉ recipient.toList) (limit nowMs : Nat) :
    Undisturbed recipient limit nowMs store := by
  constructor
  · intro entry met
    exact ⟨_, parseSeqFromKey_plain keyed plain (List.mem_of_mem_filter met.mem)⟩
  · intro msg member
    obtain ⟨entry, scanned, rfl⟩ := List.mem_map.mp (List.mem_of_mem_filter (List.mem_of_mem_take member))
    rw [scanPrefix_plain keyed plain own] at scanned
    simpa using (List.mem_filter.mp scanned).2

variable [Base64]

/-- The first page of a pull is the recipient's own, exactly as far as nothing disturbs it. -/
theorem pull_exact {store : SledStore} (keyed : Keyed store.messages) (recipient : String) (limit nowMs : Nat) :
    (∃ batch, (pull recipient none limit nowMs store).1 = .ok batch ∧
      batch.items = (deliverable recipient nowMs store).take (min limit u32Max)) ↔
    Undisturbed recipient (min limit u32Max) nowMs store := by
  have every : wanted none nowMs = fun entry => live nowMs entry.2 := by
    funext entry
    simp [wanted]
  have started : startSeq recipient none = .ok none := rfl
  have own := @Paging.take_filter_iff _ (underPrefix recipient nowMs store)
    (fun msg => decide (msg.recipient = recipient)) (min limit u32Max)
  simp only [decide_eq_true_eq] at own
  by_cases readable : ∀ entry : Entry,
      Met none nowMs (min limit u32Max) (scanPrefix store.messages (messagePrefix recipient)) entry → Readable entry
  · rw [pull_scanned started (pullScan_page none nowMs readable), deliverable_scan keyed, every]
    have page : ((scanPrefix store.messages (messagePrefix recipient)).filter (fun entry => live nowMs entry.2)).map
        Prod.snd = underPrefix recipient nowMs store := by
      rw [underPrefix, List.filter_map]
      rfl
    rw [page]
    constructor
    · rintro ⟨batch, pulled, items⟩
      cases pulled
      exact ⟨readable, own.mp items⟩
    · intro undisturbed
      exact ⟨_, rfl, own.mpr undisturbed.owned⟩
  · obtain ⟨entry, met, unreadable⟩ : ∃ entry : Entry,
        Met none nowMs (min limit u32Max) (scanPrefix store.messages (messagePrefix recipient)) entry ∧
          ¬ Readable entry := by
      simpa using readable
    have scan : ∃ err, pullScan none (min limit u32Max) nowMs
        (scanPrefix store.messages (messagePrefix recipient)) [] = .error err :=
      pullScan_unreadable none nowMs (Nat.zero_le _) (scan_numbered keyed (messagePrefix recipient)) met unreadable
    obtain ⟨err, failed⟩ := scan
    rw [pull_failed started failed]
    constructor
    · rintro ⟨batch, pulled, _⟩
      cases pulled
    · intro undisturbed
      exact absurd undisturbed.readable readable

variable (limits : RelayLimits)

/-- After any calls, for any recipient: a pull from the start returns exactly the recipient's first
    unexpired messages, in arrival order, when and only when nothing disturbs its scan. -/
theorem isolation (calls : List (Call × HashOrder)) (recipient : String) (limit nowMs : Nat) :
    (deliverable recipient nowMs (final (next limits) new calls)).Pairwise (fun a b => a.arrivalSeq ≤ b.arrivalSeq) ∧
    ((∃ batch, (pull recipient none limit nowMs (final (next limits) new calls)).1 = .ok batch ∧
      batch.items = (deliverable recipient nowMs (final (next limits) new calls)).take (min limit u32Max)) ↔
    Undisturbed recipient (min limit u32Max) nowMs (final (next limits) new calls)) := by
  have keyed := (run_consistent limits calls).keyed
  exact ⟨(keyed.arrival_sorted recipient).filter _, pull_exact keyed recipient limit nowMs⟩

end Trees

def intrusion (recipient : String) : List (Call × HashOrder) := [(.push (sample recipient 7 0 9 10), .asListed)]

/-- With a number after the separator `a` is handed the message of another, with anything else the pull of `a` fails. -/
theorem isolation_broken :
    ((pull "a" none 1 0 (final (next sampleLimits) new (intrusion "a:5"))).1.toOption.map PullBatch.items =
      some [(sample "a:5" 7 0 9 10).queued 0]) ∧
    (pull "a" none 1 0 (final (next sampleLimits) new (intrusion "a:b"))).1 = .error (.internal "invalid key") ∧
    ¬ ∃ batch, (pull "a" none 1 0 (final (next sampleLimits) new (intrusion "a:5"))).1 = .ok batch ∧
      batch.items = (deliverable "a" 0 (final (next sampleLimits) new (intrusion "a:5"))).take (min 1 u32Max) := by
  have leaked : ((pull "a" none 1 0 (final (next sampleLimits) new (intrusion "a:5"))).1.toOption.map
      PullBatch.items = some [(sample "a:5" 7 0 9 10).queued 0]) := by decide +kernel
  have empty : deliverable "a" 0 (final (next sampleLimits) new (intrusion "a:5")) = [] := by decide +kernel
  refine ⟨leaked, by decide +kernel, ?_⟩
  rintro ⟨batch, pulled, items⟩
  rw [empty] at items
  rw [pulled] at leaked
  simp [Except.toOption, items] at leaked

end EnigmaRelay.SledStore
