import EnigmaRelay.Model.Standard

open Std FixedWidth

namespace EnigmaRelay

section Numerals

theorem compare_numeral {width n m : Nat} (below : n < m) (bound : m < 10 ^ (width + 1)) (x y : Bytes) :
    compare (Text.asBytes (Text.zeroPadded (width + 1) n) ++ x)
      (Text.asBytes (Text.zeroPadded (width + 1) m) ++ y) = .lt := by
  rw [Text.asBytes_zeroPadded width n (Nat.lt_trans below bound), Text.asBytes_zeroPadded width m bound]
  refine compare_digits Text.digitByte (by decide) ?_ below bound x y
  intro a b smaller small
  rw [Std.compare_eq_lt, UInt8.lt_iff_toNat_lt, Text.digitByte_toNat b small, Text.digitByte_toNat a (by omega)]
  omega

theorem compare_numerals {width n m : Nat} (nBound : n < 10 ^ (width + 1)) (mBound : m < 10 ^ (width + 1))
    (x y : Bytes) :
    compare (Text.asBytes (Text.zeroPadded (width + 1) n) ++ x)
      (Text.asBytes (Text.zeroPadded (width + 1) m) ++ y) = (compare n m).then (compare x y) := by
  rcases Nat.lt_trichotomy n m with below | equal | above
  · rw [compare_numeral below mBound, Nat.compare_eq_lt.mpr below]
    rfl
  · rw [equal, compare_append_left, Nat.compare_eq_eq.mpr rfl]
    rfl
  · rw [OrientedOrd.eq_swap, compare_numeral above nBound, Nat.compare_eq_gt.mpr above]
    rfl

theorem numeral_injective {width n m : Nat} (nBound : n < 10 ^ (width + 1)) (mBound : m < 10 ^ (width + 1))
    (same : Text.asBytes (Text.zeroPadded (width + 1) n) = Text.asBytes (Text.zeroPadded (width + 1) m)) : n = m := by
  have apart : ∀ {a b : Nat}, a < b → b < 10 ^ (width + 1) →
      Text.asBytes (Text.zeroPadded (width + 1) a) ≠ Text.asBytes (Text.zeroPadded (width + 1) b) := by
    intro a b below bound equal
    have ordered := compare_numeral below bound [] []
    rw [equal, ReflOrd.compare_self] at ordered
    cases ordered
  rcases Nat.lt_trichotomy n m with below | equal | above
  · exact absurd same (apart below mBound)
  · exact equal
  · exact absurd same.symm (apart above nBound)

theorem numeral_length {width n : Nat} (bound : n < 10 ^ (width + 1)) :
    (Text.asBytes (Text.zeroPadded (width + 1) n)).length = width + 1 := by
  rw [Text.asBytes_zeroPadded width n bound, List.length_map, digits_length]

theorem seq_fits {seq : Nat} (bound : seq < 2 ^ 64) : seq < 10 ^ (19 + 1) := Nat.lt_trans bound (by decide)

theorem chunk_fits (chunkIndex : UInt32) : chunkIndex.toNat < 10 ^ (9 + 1) :=
  Nat.lt_trans chunkIndex.toNat_lt (by decide)

end Numerals

section Integers

theorem encodeU64_length (value : Nat) : (encodeU64 value).length = 8 := by
  simp [encodeU64]

theorem fold_digits256 (width n : Nat) (bound : n < 256 ^ width) :
    ((digits 256 width n).map UInt8.ofNat).foldl (fun value byte => value * 256 + byte.toNat) 0 = n := by
  induction width generalizing n with
  | zero =>
    have zero : n = 0 := by simpa using bound
    rw [zero]
    rfl
  | succ width ih =>
    have low : (UInt8.ofNat (n % 256)).toNat = n % 256 := by
      rw [UInt8.toNat_ofNat']
      exact Nat.mod_eq_of_lt (Nat.mod_lt n (by decide))
    rw [digits, List.map_append, List.foldl_append, ih (n / 256) (quotient_bound bound)]
    simp only [List.map_cons, List.map_nil, List.foldl_cons, List.foldl_nil, low]
    omega

theorem decodeU64_encodeU64 {value : Nat} (bound : value < 2 ^ 64) : decodeU64 (encodeU64 value) = .ok value := by
  rw [decodeU64, if_neg (by rw [encodeU64_length]; decide)]
  exact congrArg Except.ok (fold_digits256 8 value bound)

theorem encodeU64_injective {a b : Nat} (aBound : a < 2 ^ 64) (bBound : b < 2 ^ 64)
    (same : encodeU64 a = encodeU64 b) : a = b := by
  have decoded := congrArg decodeU64 same
  rw [decodeU64_encodeU64 aBound, decodeU64_encodeU64 bBound] at decoded
  exact Except.ok.inj decoded

end Integers

theorem quotaKey_injective {recipient other : String} (same : quotaKey recipient = quotaKey other) :
    recipient = other :=
  Text.asBytes_injective (List.append_cancel_left same)

theorem seqKey_injective {recipient other : String} (same : seqKey recipient = seqKey other) : recipient = other :=
  Text.asBytes_injective (List.append_cancel_left same)

theorem colon_absent {recipient : String} (plain : ':' ∉ recipient.toList) : colon ∉ Text.asBytes recipient :=
  fun member => plain ((Text.octet_mem_asBytes recipient ':' (by decide)).mp member)

section Keys

variable [UuidText]

theorem hyphenated_injective {a b : Uuid} (same : UuidText.hyphenated a = UuidText.hyphenated b) : a = b := by
  have apart : ∀ {a b : Uuid}, a.toNat < b.toNat → UuidText.hyphenated a ≠ UuidText.hyphenated b := by
    intro a b below equal
    have ordered := UuidText.ordered a b below
    rw [equal, ReflOrd.compare_self] at ordered
    cases ordered
  apply BitVec.eq_of_toNat_eq
  rcases Nat.lt_trichotomy a.toNat b.toNat with below | equal | above
  · exact absurd same (apart below)
  · exact equal
  · exact absurd same.symm (apart above)

theorem itemSuffix_length (messageId : Uuid) (chunkIndex : UInt32) : (itemSuffix messageId chunkIndex).length = 47 := by
  simp [itemSuffix, UuidText.length_eq, numeral_length (chunk_fits chunkIndex)]

theorem itemSuffix_injective {messageId other : Uuid} {chunkIndex otherChunk : UInt32}
    (same : itemSuffix messageId chunkIndex = itemSuffix other otherChunk) :
    messageId = other ∧ chunkIndex = otherChunk := by
  have heads : (UuidText.hyphenated messageId ++ [colon]).length = (UuidText.hyphenated other ++ [colon]).length := by
    simp [UuidText.length_eq]
  obtain ⟨ids, chunks⟩ := List.append_inj same heads
  refine ⟨hyphenated_injective (List.append_cancel_right ids), ?_⟩
  exact UInt32.toNat_inj.mp (numeral_injective (chunk_fits chunkIndex) (chunk_fits otherChunk) chunks)

theorem indexKey_injective {recipient other : String} {messageId otherId : Uuid} {chunkIndex otherChunk : UInt32}
    (same : indexKey recipient messageId chunkIndex = indexKey other otherId otherChunk) :
    recipient = other ∧ messageId = otherId ∧ chunkIndex = otherChunk := by
  obtain ⟨heads, items⟩ := List.append_inj' same (by rw [itemSuffix_length, itemSuffix_length])
  obtain ⟨ids, chunks⟩ := itemSuffix_injective items
  refine ⟨Text.asBytes_injective (List.append_cancel_left (List.append_cancel_right heads)), ids, chunks⟩

theorem messageKey_injective {recipient other : String} {seq otherSeq : Nat} {messageId otherId : Uuid}
    {chunkIndex otherChunk : UInt32} (bound : seq < 2 ^ 64) (otherBound : otherSeq < 2 ^ 64)
    (same : messageKey recipient seq messageId chunkIndex = messageKey other otherSeq otherId otherChunk) :
    recipient = other ∧ seq = otherSeq ∧ messageId = otherId ∧ chunkIndex = otherChunk := by
  obtain ⟨front, items⟩ := List.append_inj' same (by rw [itemSuffix_length, itemSuffix_length])
  obtain ⟨ids, chunks⟩ := itemSuffix_injective items
  obtain ⟨prefixes, seqs⟩ := List.append_inj' (List.append_cancel_right front)
    (by rw [numeral_length (seq_fits bound), numeral_length (seq_fits otherBound)])
  refine ⟨?_, numeral_injective (seq_fits bound) (seq_fits otherBound) seqs, ids, chunks⟩
  exact Text.asBytes_injective (List.append_cancel_left (List.append_cancel_right prefixes))

/-- The keys of one recipient are ordered by sequence number. -/
theorem compare_messageKey {recipient : String} {seq otherSeq : Nat} (below : seq < otherSeq)
    (bound : otherSeq < 2 ^ 64) (messageId otherId : Uuid) (chunkIndex otherChunk : UInt32) :
    compare (messageKey recipient seq messageId chunkIndex) (messageKey recipient otherSeq otherId otherChunk) = .lt := by
  simp only [messageKey, List.append_assoc]
  rw [compare_append_left]
  exact compare_numeral below (seq_fits bound) _ _

theorem compare_hyphenated (messageId otherId : Uuid) (x y : Bytes) :
    compare (UuidText.hyphenated messageId ++ x) (UuidText.hyphenated otherId ++ y) =
      (compare messageId.toNat otherId.toNat).then (compare x y) := by
  have apart : ∀ {a b : Uuid} (x y : Bytes), a.toNat < b.toNat →
      compare (UuidText.hyphenated a ++ x) (UuidText.hyphenated b ++ y) = .lt := by
    intro a b x y below
    apply compare_append_of_lt _ (UuidText.ordered a b below)
    rw [UuidText.length_eq, UuidText.length_eq]
  rcases Nat.lt_trichotomy messageId.toNat otherId.toNat with below | equal | above
  · rw [apart x y below, Nat.compare_eq_lt.mpr below]
    rfl
  · rw [BitVec.eq_of_toNat_eq equal, compare_append_left, Nat.compare_eq_eq.mpr rfl]
    rfl
  · rw [OrientedOrd.eq_swap, apart y x above, Nat.compare_eq_gt.mpr above]
    rfl

theorem compare_itemSuffix (messageId otherId : Uuid) (chunkIndex otherChunk : UInt32) :
    compare (itemSuffix messageId chunkIndex) (itemSuffix otherId otherChunk) =
      (compare messageId.toNat otherId.toNat).then (compare chunkIndex.toNat otherChunk.toNat) := by
  have chunks := compare_numerals (chunk_fits chunkIndex) (chunk_fits otherChunk) [] []
  have nothing : compare ([] : Bytes) [] = .eq := rfl
  rw [List.append_nil, List.append_nil, nothing, Ordering.then_eq] at chunks
  simp only [itemSuffix, List.append_assoc]
  rw [compare_hyphenated, compare_append_left, chunks]

theorem messagePrefix_isPrefixOf (recipient : String) (seq : Nat) (messageId : Uuid) (chunkIndex : UInt32) :
    (messagePrefix recipient).isPrefixOf (messageKey recipient seq messageId chunkIndex) = true := by
  rw [List.isPrefixOf_iff_prefix, messageKey, List.append_assoc, List.append_assoc]
  exact List.prefix_append _ _

theorem messagePrefix_plain {recipient other : String} (plain : ':' ∉ recipient.toList) (otherPlain : ':' ∉ other.toList)
    {seq : Nat} {messageId : Uuid} {chunkIndex : UInt32}
    (starts : (messagePrefix recipient).isPrefixOf (messageKey other seq messageId chunkIndex) = true) :
    recipient = other := by
  rw [List.isPrefixOf_iff_prefix] at starts
  obtain ⟨rest, same⟩ := starts
  simp only [messageKey, messagePrefix, List.append_assoc] at same
  have tails := List.append_cancel_left same
  -- both sides are read up to their first separator
  have left := List.splitOn_append_cons_self_of_not_mem (colon_absent plain) rest
  have right := List.splitOn_append_cons_self_of_not_mem (colon_absent otherPlain)
    (Text.asBytes (Text.zeroPadded 20 seq) ++ ([colon] ++ itemSuffix messageId chunkIndex))
  simp only [List.singleton_append] at tails right
  rw [tails, right] at left
  exact (Text.asBytes_injective (List.cons.inj left).1).symm

theorem splitOn_messageKey (recipient : String) (seq : Nat) (messageId : Uuid) (chunkIndex : UInt32) :
    (messageKey recipient seq messageId chunkIndex).splitOn colon =
      Text.asBytes "msg" :: (Text.asBytes recipient ++ colon ::
        (Text.asBytes (Text.zeroPadded 20 seq) ++ colon :: itemSuffix messageId chunkIndex)).splitOn colon := by
  have kind : colon ∉ Text.asBytes "msg" := by decide +kernel
  have start : Text.asBytes "msg:" = Text.asBytes "msg" ++ [colon] := by decide +kernel
  have layout : messageKey recipient seq messageId chunkIndex =
      Text.asBytes "msg" ++ colon :: (Text.asBytes recipient ++ colon ::
        (Text.asBytes (Text.zeroPadded 20 seq) ++ colon :: itemSuffix messageId chunkIndex)) := by
    simp only [messageKey, messagePrefix, start, List.append_assoc, List.cons_append, List.nil_append]
  rw [layout, List.splitOn_append_cons_self_of_not_mem kind]

theorem parseSeqFromKey_ne_none (recipient : String) (seq : Nat) (messageId : Uuid) (chunkIndex : UInt32) :
    parseSeqFromKey (messageKey recipient seq messageId chunkIndex) ≠ .ok none := by
  have first := List.length_pos_iff.mpr (List.splitOn_ne_nil colon (Text.asBytes recipient))
  have second := List.length_pos_iff.mpr (List.splitOn_ne_nil colon
    (Text.asBytes (Text.zeroPadded 20 seq) ++ colon :: itemSuffix messageId chunkIndex))
  have third : ((messageKey recipient seq messageId chunkIndex).splitOn colon)[2]? ≠ none := by
    rw [splitOn_messageKey, List.splitOn_append_cons_self, ne_eq, List.getElem?_eq_none_iff, List.length_cons,
      List.length_append]
    omega
  rw [parseSeqFromKey, if_neg (by rw [splitOn_messageKey]; simp)]
  split
  · rename_i missing
    exact absurd missing third
  · split
    · intro same
      cases same
    · intro same
      cases same

theorem parseSeqFromKey_messageKey {recipient : String} (plain : ':' ∉ recipient.toList) {seq : Nat}
    (bound : seq < 2 ^ 64) (messageId : Uuid) (chunkIndex : UInt32) :
    parseSeqFromKey (messageKey recipient seq messageId chunkIndex) = .ok (some seq) := by
  have digits : Text.asBytes (Text.zeroPadded 20 seq) = (digits 10 20 seq).map Text.digitByte :=
    Text.asBytes_zeroPadded 19 seq (seq_fits bound)
  have numeral : colon ∉ Text.asBytes (Text.zeroPadded 20 seq) := by
    rw [digits, List.mem_map]
    rintro ⟨digit, member, same⟩
    have small := digits_below (by decide) member
    have codes := congrArg UInt8.toNat same
    rw [Text.digitByte_toNat digit small] at codes
    have colonCode : colon.toNat = 58 := by decide
    omega
  have parts : (messageKey recipient seq messageId chunkIndex).splitOn colon =
      Text.asBytes "msg" :: Text.asBytes recipient :: Text.asBytes (Text.zeroPadded 20 seq) ::
        (itemSuffix messageId chunkIndex).splitOn colon := by
    rw [splitOn_messageKey, List.splitOn_append_cons_self_of_not_mem (colon_absent plain),
      List.splitOn_append_cons_self_of_not_mem numeral]
  have parsed : Text.parseU64 (Text.asBytes (Text.zeroPadded 20 seq)) = some seq := by
    rw [digits, Text.parseU64_digits 19 seq bound (seq_fits bound)]
  simp [parseSeqFromKey, parts, parsed]

/-- The keys of the two trees name what they are built from, the message keys of a recipient are in
    the order of its arrivals, and a separator in no recipient makes prefix and sequence number readable. -/
theorem key_layout {recipient other : String} {seq otherSeq : Nat} (bound : seq < 2 ^ 64)
    (otherBound : otherSeq < 2 ^ 64) (messageId otherId : Uuid) (chunkIndex otherChunk : UInt32) :
    (messageKey recipient seq messageId chunkIndex = messageKey other otherSeq otherId otherChunk →
      recipient = other ∧ seq = otherSeq ∧ messageId = otherId ∧ chunkIndex = otherChunk) ∧
    (indexKey recipient messageId chunkIndex = indexKey other otherId otherChunk →
      recipient = other ∧ messageId = otherId ∧ chunkIndex = otherChunk) ∧
    compare (messageKey recipient seq messageId chunkIndex) (messageKey recipient otherSeq otherId otherChunk) =
      (compare seq otherSeq).then
        ((compare messageId.toNat otherId.toNat).then (compare chunkIndex.toNat otherChunk.toNat)) ∧
    (':' ∉ recipient.toList → ':' ∉ other.toList →
      ((messagePrefix recipient).isPrefixOf (messageKey other otherSeq otherId otherChunk) = true ↔
        recipient = other)) ∧
    (':' ∉ recipient.toList →
      parseSeqFromKey (messageKey recipient seq messageId chunkIndex) = .ok (some seq)) := by
  refine ⟨messageKey_injective bound otherBound, indexKey_injective, ?_, ?_, ?_⟩
  · simp only [messageKey, List.append_assoc]
    rw [compare_append_left, compare_numerals (seq_fits bound) (seq_fits otherBound), compare_append_left,
      compare_itemSuffix]
  · intro plain otherPlain
    constructor
    · exact messagePrefix_plain plain otherPlain
    · intro same
      rw [same]
      exact messagePrefix_isPrefixOf other otherSeq otherId otherChunk
  · intro plain
    exact parseSeqFromKey_messageKey plain bound messageId chunkIndex

end Keys

theorem key_layout_sample :
    compare (messageKey "alice" 9 2 0) (messageKey "alice" 10 1 0) = .lt ∧
    (messagePrefix "alice").isPrefixOf (messageKey "bob" 10 1 0) = false ∧
    parseSeqFromKey (messageKey "alice" 9 2 0) = .ok (some 9) := by
  obtain ⟨_, _, ordered, prefixed, parsed⟩ := @key_layout _ "alice" "bob" 9 10 (by decide) (by decide) 2 1 0 0
  have apart := (prefixed (by decide) (by decide)).not.mpr (by decide)
  exact ⟨ordered, Bool.eq_false_iff.mpr apart, parsed (by decide)⟩

end EnigmaRelay
