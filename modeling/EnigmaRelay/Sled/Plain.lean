import EnigmaRelay.Sled.Isolation

open Std Machine

namespace EnigmaRelay.SledStore

def waiting (recipient : String) (start : Option Nat) (nowMs : Nat) (store : SledStore) : List QueueMessage :=
  (stored store.messages recipient).filter (fun msg => live nowMs msg && start.all (· < msg.arrivalSeq))

section Trees

variable [UuidText] {store : SledStore}

theorem filter_wanted (keyed : Keyed store.messages) (plain : Plain store.messages) {recipient : String}
    (own : ':' ∉ recipient.toList) (start : Option Nat) (nowMs : Nat) :
    ((scanPrefix store.messages (messagePrefix recipient)).filter (wanted start nowMs)).map Prod.snd =
      waiting recipient start nowMs store := by
  rw [scanPrefix_plain keyed plain own, waiting, stored, List.filter_map, List.filter_map, List.filter_filter,
    List.filter_filter]
  congr 1
  apply List.filter_congr
  intro entry member
  have number : seqOf entry = entry.2.arrivalSeq := by
    rw [seqOf, parseSeqFromKey_plain keyed plain member]
  cases start with
  | none => simp [wanted]
  | some seq =>
    rw [Bool.eq_iff_iff]
    simp [wanted, number, and_comm]

variable [Base64]

theorem pull_plain (keyed : Keyed store.messages) (plain : Plain store.messages) {recipient : String}
    (own : ':' ∉ recipient.toList) {cursor : Option String} {start : Option Nat}
    (started : startSeq recipient cursor = .ok start) (limit nowMs : Nat) :
    pull recipient cursor limit nowMs store =
      (.ok { items := (waiting recipient start nowMs store).take (min limit u32Max)
             nextCursor := if min limit u32Max < (waiting recipient start nowMs store).length then
               ((waiting recipient start nowMs store).take (min limit u32Max)).getLast?.map
                 (fun item => encodeCursor recipient item.arrivalSeq) else none
             remainingEstimate := (readQuota store.quota recipient).count -
               ((waiting recipient start nowMs store).take (min limit u32Max)).length }, store) := by
  have readable : ∀ entry : Entry,
      Met start nowMs (min limit u32Max) (scanPrefix store.messages (messagePrefix recipient)) entry → Readable entry :=
    fun entry met => ⟨_, parseSeqFromKey_plain keyed plain (List.mem_of_mem_filter met.mem)⟩
  have page := filter_wanted keyed plain own start nowMs
  have size := congrArg List.length page
  rw [List.length_map] at size
  rw [pull_scanned started (pullScan_page start nowMs readable), page, size]
  simp only [decide_eq_true_eq]
  rfl

end Trees

end EnigmaRelay.SledStore
