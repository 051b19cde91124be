import PlacitumNode.Dataset.Books
import PlacitumNode.Rate.Account

/-!
# Packages and snapshots of the keeper

A keeper sends its entries as one snapshot and then as a sequence of packages, each a header and a
stream of records.  `ngx_http_waf_dataset.c` reads the stream twice: a scan finds out whether it is
whole, and only then a second pass, in batches of 1024 records under the slot's lock, applies it.  A
snapshot is read three times, as it marks the entries it keeps before the others are swept.

* `packHead`, `packNext`, `scan`: the header and the records;
* `batch`, `batches`: a pass over the records, with the records it met;
* `applyPackage`, `applySnapshot`: the two entry points, from the slot of the dataset on;
* `Parses`, `scan_eq_some`, `batches_eq`: every pass meets the records of the scan;
* `refused_changes_nothing`: what a refusal leaves, and what else happens.

The keyed hash is a parameter, with the two clocks and the answers of the slab allocator.  Between two
batches the lock is free for the other workers; what they do then is not modelled.
-/

namespace Dataset

open Octets Machine SearchTree

/-! ### The stream -/

/-- `ngx_http_waf_ds_le64` -/
def le64 (p : Bytes) : UInt64 :=
  ((p.take 8).zipIdx.map fun b => b.1.toUInt64 <<< UInt64.ofNat (8 * b.2)).foldl (· ||| ·) 0

/-- A word read as an `int64_t`. -/
def int64 (x : UInt64) : ℤ := signed x.toNat

/-- Two bytes, the low one first. -/
def le16 (a b : UInt8) : ℕ := a.toNat + 256 * b.toNat

/-- `ngx_http_waf_ds_pack_t` -/
structure Pack where
  kind : UInt8
  type : UInt8
  flags : UInt8
  epoch : UInt64
  seq : UInt64
  hash : UInt64
  key : Bytes
  count : ℕ
  deriving DecidableEq

/-- One record of the stream. -/
structure Record where
  op : UInt8
  key : Bytes
  exp : ℤ
  deriving DecidableEq

/-- `NGX_DONE`, `NGX_ERROR` or `NGX_OK` with the record and what follows it. -/
inductive Next
  | done
  | error
  | ok (r : Record) (rest : Bytes)

/-- `ngx_http_waf_ds_pack_head`: the header, and the bytes after it. -/
def packHead (data : Bytes) : Option (Pack × Bytes) :=
  if data.length < 52 ∨ data.take 4 ≠ [0x57, 0x41, 0x46, 0x53] ∨ data.getD 4 0 ≠ 1 then none
  else
    some
      ({ kind := data.getD 5 0
         type := data.getD 6 0
         flags := data.getD 7 0
         epoch := le64 (data.drop 8)
         seq := le64 (data.drop 16)
         hash := le64 (data.drop 24)
         key := (data.drop 32).take 16
         count := le16 (data.getD 48 0) (data.getD 49 0) +
          65536 * le16 (data.getD 50 0) (data.getD 51 0) },
       data.drop 52)

/-- The reasons of a record of strings, when the header announces them. -/
def skipReason (type flags : UInt8) (p : Bytes) : Option Bytes :=
  if type = 2 ∧ flags &&& 1 ≠ 0 then
    match p with
    | a :: b :: p => if p.length < le16 a b then none else some (p.drop (le16 a b))
    | _ => none
  else some p

/-- The key of a record has `n` bytes, and its expiry follows. -/
def packTail (type flags op : UInt8) (key p : Bytes) (n : ℕ) : Next :=
  if p.length < n + 8 then .error
  else
    match skipReason type flags (p.drop (n + 8)) with
    | none => .error
    | some rest => .ok ⟨op, key ++ p.take n, int64 (le64 (p.drop n))⟩ rest

/-- `ngx_http_waf_ds_pack_next` -/
def packNext (type flags : UInt8) : Bytes → Next
  | [] => .done
  | op :: a :: b :: p =>
    if type = 1 then
      if a = 4 then if b.toNat > 4 * 8 then .error else packTail type flags op [a, b] p 4
      else if a = 6 then if b.toNat > 16 * 8 then .error else packTail type flags op [a, b] p 16
      else .error
    else packTail type flags op [] p (le16 a b)
  | _ => .error

/-- The scan of the stream: its records, when it is whole. -/
def scanLoop (type flags : UInt8) : ℕ → Bytes → List Record → Option (List Record)
  | 0, _, _ => none
  | fuel + 1, p, seen =>
    match packNext type flags p with
    | .done => some seen
    | .error => none
    | .ok r rest => scanLoop type flags fuel rest (seen ++ [r])

def scan (type flags : UInt8) (p : Bytes) : Option (List Record) :=
  scanLoop type flags (p.length + 1) p []

/-! ### Passes over the stream -/

section

variable (type flags : UInt8) (f : ℕ → Slot → Record → Slot)

/-- A pass: the slot, what is left of the stream, and the records met so far. -/
structure Pass where
  slot : Slot
  rest : Bytes
  seen : List Record

/-- The records of one batch; whether the stream may go on. -/
def batch : ℕ → Pass → Bool × Pass
  | 0, s => (true, s)
  | k + 1, s =>
    match packNext type flags s.rest with
    | .ok r rest => batch k ⟨f s.seen.length s.slot r, rest, s.seen ++ [r]⟩
    | _ => (false, s)

/-- Batch after batch, until the stream has no further record. -/
def batches : ℕ → Pass → Option Pass
  | 0, _ => none
  | fuel + 1, s =>
    match batch type flags f 1024 s with
    | (true, s) => batches fuel s
    | (false, s) => some s

end

/-! ### Applying -/

/-- `NGX_HTTP_WAF_DS_APPLIED` and the others. -/
inductive Applied
  | applied
  | stale
  | gap
  | foreign
  | diverged
  | malformed
  | busy
  deriving DecidableEq

/-- What a call returns: the code, the slot, and the records that each of its passes met. -/
structure Outcome where
  code : Applied
  slot : Slot
  passes : List (List Record)

/-- The part of `ngx_http_waf_dataset_t` the keeper's data is checked against. -/
structure DatasetLimits where
  type : DsType
  max : ℕ

/-- The clocks and the allocator during a call. -/
structure World where
  now : ℕ
  nowMs : ℤ
  room : ℕ → Bool × Bool

/-- `ngx_http_waf_ds_expires` -/
def dsExpires (w : World) (exp : ℤ) : ℕ :=
  if exp = 0 then 0
  else
    let left := signed (exp - w.nowMs)
    if left ≤ 0 then ((w.now : ℤ) - 1).emod (2 ^ 64) |>.toNat
    else (w.now + left.toNat) % 2 ^ 64

def typeMatches (ds : DatasetLimits) (h : Pack) : Bool :=
  if ds.type = .cidr then h.type == 1 else h.type == 2

section

variable (crc : Bytes → ℕ) (bal : Balance LiveNode.id) (siphash : Bytes → Bytes → UInt64)

/-- One record of a package. -/
def packageRecord (w : World) (gen : ℕ) (i : ℕ) (slot : Slot) (r : Record) : Slot :=
  if r.op = 2 then (liveDrop crc bal slot r.key).2
  else if r.op ≠ 1 then slot
  else
    (livePut crc bal slot r.key (dsExpires w r.exp) (siphash slot.key r.key) gen (w.room i)).2

/-- One record of a snapshot, in the pass that marks and in the pass that stores. -/
def markRecord (gen : ℕ) (_ : ℕ) (slot : Slot) (r : Record) : Slot :=
  if r.op = 1 then liveMark crc slot r.key gen else slot

def snapshotRecord (w : World) (key : Bytes) (gen : ℕ) (i : ℕ) (slot : Slot) (r : Record) : Slot :=
  if r.op ≠ 1 then slot
  else (livePut crc bal slot r.key (dsExpires w r.exp) (siphash key r.key) gen (w.room i)).2

/-- `ngx_http_waf_dataset_apply_package`; `none` when it does not return. -/
def applyPackage (w : World) (ds : DatasetLimits) (slot : Slot) (data : Bytes) : Option Outcome :=
  match packHead data with
  | none => some ⟨.malformed, slot, []⟩
  | some (head, cur) =>
    if head.kind ≠ 2 then some ⟨.malformed, slot, []⟩
    else if !typeMatches ds head then some ⟨.foreign, slot, []⟩
    else
      match scan head.type head.flags cur with
      | none => some ⟨.malformed, slot, []⟩
      | some _ =>
        if slot.epoch = 0 ∨ head.epoch ≠ slot.epoch then some ⟨.foreign, slot, []⟩
        else if slot.syncing then some ⟨.busy, slot, []⟩
        else if head.seq ≤ slot.seq then some ⟨.stale, slot, []⟩
        else if head.seq ≠ slot.seq + 1 then some ⟨.gap, slot, []⟩
        else
          match batches head.type head.flags (packageRecord crc bal siphash w (liveGen slot))
              (cur.length + 1) ⟨{ slot with syncing := true }, cur, []⟩ with
          | none => none
          | some s =>
            some
              { code := if s.slot.liveHash ≠ head.hash then .diverged else .applied
                slot := { s.slot with seq := head.seq, syncing := false }
                passes := [s.seen] }

/-- The sweeps of a snapshot, until the cursor has passed the last node. -/
def sweepAll (gen : ℕ) : ℕ → Option (ℕ × Bytes) → Slot → Option Slot
  | 0, _, _ => none
  | fuel + 1, cursor, slot =>
    match liveSweep bal slot gen 1024 cursor with
    | (false, _, _, slot) => some slot
    | (true, cursor, _, slot) => sweepAll gen fuel cursor slot

/-- `ngx_http_waf_dataset_apply_snapshot`; `none` when it does not return. -/
def applySnapshot (w : World) (ds : DatasetLimits) (slot : Slot) (data : Bytes) : Option Outcome :=
  match packHead data with
  | none => some ⟨.malformed, slot, []⟩
  | some (head, start) =>
    if head.kind ≠ 1 then some ⟨.malformed, slot, []⟩
    else if !typeMatches ds head then some ⟨.foreign, slot, []⟩
    else
      match scan head.type head.flags start with
      | none => some ⟨.malformed, slot, []⟩
      | some records =>
        let adds := records.countP fun r => r.op = 1
        let cap := min slot.liveLimit ds.max
        if head.count > cap ∨ adds > cap then some ⟨.malformed, slot, []⟩
        else if slot.syncing then some ⟨.busy, slot, []⟩
        else if slot.epoch ≠ 0 ∧ head.epoch = slot.epoch ∧ head.seq < slot.seq then
          some ⟨.stale, slot, []⟩
        else
          match liveBegin slot (w.room records.length).1 with
          | none => some ⟨.malformed, slot, []⟩
          | some (gen, begun) =>
            (batches head.type head.flags (markRecord crc gen) (start.length + 1)
                ⟨{ begun with syncing := true }, start, []⟩).bind fun marked =>
              (sweepAll bal gen (marked.slot.nodes.length + 1) none marked.slot).bind fun swept =>
                (batches head.type head.flags (snapshotRecord crc bal siphash w head.key gen)
                    (start.length + 1) ⟨swept, start, []⟩).map fun s =>
                  { code := if s.slot.liveHash ≠ head.hash then .diverged else .applied
                    slot := { s.slot with
                      epoch := head.epoch
                      seq := head.seq
                      key := head.key
                      syncing := false
                      snapBad := decide (s.slot.liveHash ≠ head.hash) }
                    passes := [marked.seen, s.seen] }

end

/-! ### Every pass meets the records of the scan -/

section

variable {type flags : UInt8}

theorem skipReason_length {p rest : Bytes} (h : skipReason type flags p = some rest) :
    rest.length ≤ p.length := by
  unfold skipReason at h
  split at h
  · split at h
    · split at h
      · cases h
      · cases h
        simp only [List.length_drop, List.length_cons]
        omega
    · cases h
  · cases h
    exact le_rfl

theorem packTail_length {op : UInt8} {key p rest : Bytes} {n : ℕ} {r : Record}
    (h : packTail type flags op key p n = .ok r rest) : rest.length ≤ p.length := by
  unfold packTail at h
  split at h
  · cases h
  · cases hs : skipReason type flags (p.drop (n + 8)) with
    | none =>
      rw [hs] at h
      cases h
    | some q =>
      rw [hs] at h
      cases h
      exact (skipReason_length hs).trans (by simp)

theorem packNext_length {p rest : Bytes} {r : Record} (h : packNext type flags p = .ok r rest) :
    rest.length < p.length := by
  unfold packNext at h
  split at h
  · cases h
  · next op a b q =>
    have hle {key : Bytes} {n : ℕ} (ht : packTail type flags op key q n = .ok r rest) :
        rest.length < (op :: a :: b :: q).length := by
      have := packTail_length ht
      simp only [List.length_cons]
      omega
    split_ifs at h
    · exact hle h
    · exact hle h
    · exact hle h
  · cases h

/-- The stream is whole, with these records. -/
inductive Parses (type flags : UInt8) : Bytes → List Record → Prop
  | done {p : Bytes} (h : packNext type flags p = .done) : Parses type flags p []
  | ok {p rest : Bytes} {r : Record} {rs : List Record} (h : packNext type flags p = .ok r rest)
    (hrest : Parses type flags rest rs) : Parses type flags p (r :: rs)

theorem Parses.length_le {p : Bytes} {rs : List Record} (h : Parses type flags p rs) :
    rs.length ≤ p.length := by
  induction h with
  | done => exact Nat.zero_le _
  | ok hnext _ ih =>
    have := packNext_length hnext
    simp only [List.length_cons]
    omega

theorem scanLoop_parses {fuel : ℕ} {p : Bytes} {seen rs : List Record}
    (h : scanLoop type flags fuel p seen = some rs) :
    ∃ more, rs = seen ++ more ∧ Parses type flags p more := by
  induction fuel generalizing p seen with
  | zero => cases h
  | succ fuel ih =>
    simp only [scanLoop] at h
    cases hn : packNext type flags p with
    | done =>
      rw [hn] at h
      cases h
      exact ⟨[], (List.append_nil _).symm, .done hn⟩
    | error =>
      rw [hn] at h
      cases h
    | ok r rest =>
      rw [hn] at h
      obtain ⟨more, rfl, hp⟩ := ih h
      exact ⟨r :: more, by simp, .ok hn hp⟩

theorem scan_parses {p : Bytes} {rs : List Record} (h : scan type flags p = some rs) :
    Parses type flags p rs := by
  obtain ⟨more, rfl, hp⟩ := scanLoop_parses h
  exact hp

variable {f : ℕ → Slot → Record → Slot} {rs : List Record}

/-- One batch takes the next 1024 records, or as many as there are. -/
theorem batch_spec {P : Slot → Prop} (hf : ∀ i slot r, P slot → P (f i slot r)) (k : ℕ) (s : Pass)
    (hs : P s.slot) (hp : Parses type flags s.rest rs) :
    (batch type flags f k s).1 = decide (k ≤ rs.length) ∧
      (batch type flags f k s).2.seen = s.seen ++ rs.take k ∧
      Parses type flags (batch type flags f k s).2.rest (rs.drop k) ∧
      P (batch type flags f k s).2.slot := by
  induction k generalizing s rs with
  | zero => exact ⟨rfl, by simp [batch], hp, hs⟩
  | succ k ih =>
    simp only [batch]
    cases hp with
    | done hn =>
      rw [hn]
      exact ⟨rfl, by simp, .done hn, hs⟩
    | @ok _ rest r rs hn hrest =>
      rw [hn]
      obtain ⟨h1, h2, h3, h4⟩ := ih ⟨f s.seen.length s.slot r, rest, s.seen ++ [r]⟩ (hf _ _ r hs) hrest
      exact ⟨by simp [h1], by simp [h2], by simpa using h3, h4⟩

/-- **A pass meets the records of the scan**, and it ends. -/
theorem batches_spec {P : Slot → Prop} (hf : ∀ i slot r, P slot → P (f i slot r)) {fuel : ℕ}
    (s : Pass) (hs : P s.slot) (hp : Parses type flags s.rest rs) (hfuel : rs.length < fuel) :
    ∃ t, batches type flags f fuel s = some t ∧ t.seen = s.seen ++ rs ∧ P t.slot := by
  induction fuel generalizing s rs with
  | zero => omega
  | succ fuel ih =>
    simp only [batches]
    obtain ⟨h1, h2, h3, h4⟩ := batch_spec hf 1024 s hs hp
    generalize batch type flags f 1024 s = r at h1 h2 h3 h4 ⊢
    obtain ⟨more, t⟩ := r
    by_cases hmore : 1024 ≤ rs.length
    · rw [decide_eq_true hmore] at h1
      cases h1
      obtain ⟨u, hu, hseen, hu'⟩ := ih t h4 h3 (by rw [List.length_drop]; omega)
      refine ⟨u, hu, ?_, hu'⟩
      rw [hseen, h2, List.append_assoc, List.take_append_drop]
    · rw [decide_eq_false hmore] at h1
      cases h1
      refine ⟨t, rfl, ?_, h4⟩
      rw [h2, List.take_of_length_le (by omega)]

/-- The pass over a scanned stream. -/
theorem batches_of_scan {P : Slot → Prop} (hf : ∀ i slot r, P slot → P (f i slot r)) {cur : Bytes}
    (hscan : scan type flags cur = some rs) (slot : Slot) (hs : P slot) :
    ∃ t, batches type flags f (cur.length + 1) ⟨slot, cur, []⟩ = some t ∧ t.seen = rs ∧ P t.slot := by
  have hp := scan_parses hscan
  obtain ⟨t, ht, hseen, ht'⟩ := batches_spec hf ⟨slot, cur, []⟩ hs hp (Nat.lt_succ_of_le hp.length_le)
  exact ⟨t, ht, by simpa using hseen, ht'⟩

end

/-! ### The sweeps end -/

section

variable {crc : Bytes → ℕ} {bal : Balance LiveNode.id} {slot : Slot} {gen : ℕ}

/-- A cursor stands before the nodes that are still to be looked at. -/
def AtCursor (slot : Slot) (cursor : Option (ℕ × Bytes)) (ahead : List LiveNode) : Prop :=
  ∃ behind, slot.nodes = behind ++ ahead ∧ cursor = ahead.head?.map LiveNode.id

theorem Exact.nodes_nodup (hx : Exact crc slot) : (slot.nodes.map LiveNode.id).Nodup := by
  cases hl : slot.live with
  | none => simp [Slot.nodes, hl]
  | some live =>
    rw [Slot.nodes_of hl]
    exact Sorted.nodup (hx.books hl).ordered

theorem dropWhile_behind {behind ahead : List LiveNode} {ln : LiveNode}
    (hnd : ((behind ++ ln :: ahead).map LiveNode.id).Nodup) :
    (behind ++ ln :: ahead).dropWhile (fun a => a.id ≠ ln.id) = ln :: ahead := by
  rw [List.map_append, List.map_cons, List.nodup_append] at hnd
  have hne : ∀ a ∈ behind, decide (a.id ≠ ln.id) = true := by
    intro a ha
    exact decide_eq_true (hnd.2.2 _ (List.mem_map_of_mem ha) _ List.mem_cons_self)
  rw [List.dropWhile_append_of_pos hne, List.dropWhile_cons_of_neg (by simp)]

theorem filter_behind {behind ahead : List LiveNode} {ln : LiveNode}
    (hnd : ((behind ++ ln :: ahead).map LiveNode.id).Nodup) :
    (behind ++ ln :: ahead).filter (fun a => a.id ≠ ln.id) = behind ++ ahead := by
  rw [List.map_append, List.map_cons, List.nodup_append, List.nodup_cons] at hnd
  obtain ⟨-, ⟨hnot, -⟩, hdisj⟩ := hnd
  rw [List.filter_append, List.filter_cons_of_neg (by simp), List.filter_eq_self.2,
    List.filter_eq_self.2]
  · intro a ha
    refine decide_eq_true fun heq => hnot ?_
    rw [← heq]
    exact List.mem_map_of_mem ha
  · intro a ha
    exact decide_eq_true (hdisj _ (List.mem_map_of_mem ha) _ List.mem_cons_self)

/-- The loop looks at one node after the other. -/
theorem atCursor_sweepLoop (bal : Balance LiveNode.id) (gen : ℕ) (hx : Exact crc slot)
    {cursor : Option (ℕ × Bytes)} {ahead : List LiveNode} (hc : AtCursor slot cursor ahead) (n swept : ℕ) :
    AtCursor (sweepLoop bal gen n cursor swept slot).2.2 (sweepLoop bal gen n cursor swept slot).1
      (ahead.drop n) := by
  induction n generalizing slot cursor ahead swept with
  | zero => exact hc
  | succ n ih =>
    obtain ⟨behind, hnodes, rfl⟩ := hc
    cases ahead with
    | nil => exact ⟨behind, hnodes, rfl⟩
    | cons ln ahead =>
      have hnd := hx.nodes_nodup
      simp only [List.head?_cons, Option.map_some, sweepLoop]
      cases hl : slot.live with
      | none => simp [Slot.nodes, hl] at hnodes
      | some live =>
        have htree := Slot.nodes_of hl
        have hmem : ln ∈ live.tree.toList := by
          rw [← htree, hnodes]
          simp
        have hb := hx.books hl
        have hnext : (live.tree.next LiveNode.id ln.id).map LiveNode.id =
            ahead.head?.map LiveNode.id := by
          rw [hnodes] at hnd
          rw [Bst.next, ← htree, hnodes, dropWhile_behind hnd, List.tail_cons]
        simp only [search_of_mem hb.ordered hmem, hnext]
        split
        · obtain ⟨live', hlive', ht, -, -⟩ := liveDelete_live bal slot live ln
          refine ih (exact_liveDelete hx hl hmem) ⟨behind, ?_, rfl⟩ _
          rw [hnodes] at hnd
          rw [Slot.nodes_of hlive', ht, bal.toList_delete, ← htree, hnodes]
          exact filter_behind hnd
        · exact ih hx ⟨behind ++ [ln], by simpa using hnodes, rfl⟩ _

/-- A sweep from a cursor on: it goes on when it has not passed the last node. -/
theorem liveSweep_spec (bal : Balance LiveNode.id) (gen : ℕ) (hx : Exact crc slot)
    {cursor : Option (ℕ × Bytes)} {ln : LiveNode} {ahead : List LiveNode}
    (hc : AtCursor slot (some ln.id) (ln :: ahead))
    (hfrom : cursor = some ln.id ∨ cursor = none ∧ slot.nodes = ln :: ahead) (n : ℕ) :
    (liveSweep bal slot gen n cursor).1 = ((ln :: ahead).drop n).head?.isSome ∧
      AtCursor (liveSweep bal slot gen n cursor).2.2.2 (liveSweep bal slot gen n cursor).2.1
        ((ln :: ahead).drop n) := by
  have hne : slot.nodes ≠ [] := by
    obtain ⟨behind, hnodes, -⟩ := hc
    simp [hnodes]
  unfold liveSweep
  cases hl : slot.live with
  | none => simp [Slot.nodes, hl] at hne
  | some live =>
    have htree := Slot.nodes_of hl
    cases hfirst : live.tree.first with
    | none =>
      rw [htree] at hne
      exact absurd (List.head?_eq_none_iff.1 hfirst) hne
    | some a =>
      have hor : cursor.or (some a.id) = some ln.id := by
        rcases hfrom with rfl | ⟨rfl, hall⟩
        · rfl
        · rw [Bst.first, ← htree, hall, List.head?_cons, Option.some.injEq] at hfirst
          rw [hfirst]
          rfl
      have hat := atCursor_sweepLoop bal gen hx hc n 0
      simp only [hfirst, hor]
      refine ⟨?_, hat⟩
      obtain ⟨-, -, hcur⟩ := hat
      rw [hcur, Option.isSome_map]

theorem sweepAll_from (hx : Exact crc slot) {fuel : ℕ} {cursor : Option (ℕ × Bytes)} {ln : LiveNode}
    {ahead : List LiveNode} (hc : AtCursor slot (some ln.id) (ln :: ahead))
    (hfrom : cursor = some ln.id ∨ cursor = none ∧ slot.nodes = ln :: ahead)
    (hfuel : ahead.length < fuel) :
    ∃ t, sweepAll bal gen fuel cursor slot = some t ∧ Framed slot t := by
  induction fuel generalizing slot cursor ln ahead with
  | zero => omega
  | succ fuel ih =>
    obtain ⟨hmore, hat⟩ := liveSweep_spec bal gen hx hc hfrom 1024
    have hx' : Exact crc (liveSweep bal slot gen 1024 cursor).2.2.2 := exact_liveSweep gen 1024 cursor hx
    have hframe : Framed slot (liveSweep bal slot gen 1024 cursor).2.2.2 :=
      framed_liveSweep gen 1024 cursor
    simp only [sweepAll]
    generalize liveSweep bal slot gen 1024 cursor = r at hmore hat hx' hframe ⊢
    obtain ⟨more, node, swept, t⟩ := r
    have hlen : ((ln :: ahead).drop 1024).length ≤ ahead.length - 1023 := by simp
    cases hrest : (ln :: ahead).drop 1024 with
    | nil =>
      rw [hrest] at hmore
      cases hmore
      exact ⟨t, rfl, hframe⟩
    | cons b rest =>
      rw [hrest] at hmore hat hlen
      cases hmore
      have hnode : node = some b.id := hat.choose_spec.2
      rw [hnode] at hat
      rw [List.length_cons] at hlen
      obtain ⟨u, hu, hu'⟩ := ih hx' hat (.inl hnode) (by omega)
      exact ⟨u, hu, hframe.trans hu'⟩

/-- **The sweeps of a snapshot end.** -/
theorem sweepAll_ends (bal : Balance LiveNode.id) (gen : ℕ) (hx : Exact crc slot) :
    ∃ t, sweepAll bal gen (slot.nodes.length + 1) none slot = some t ∧ Framed slot t := by
  cases hnodes : slot.nodes with
  | nil =>
    refine ⟨slot, ?_, Framed.refl slot⟩
    have hsweep : liveSweep bal slot gen 1024 none = (false, none, 0, slot) := by
      unfold liveSweep
      cases hl : slot.live with
      | none => rfl
      | some live =>
        rw [Slot.nodes_of hl] at hnodes
        simp [Bst.first, hnodes]
    simp only [sweepAll, hsweep]
  | cons ln ahead =>
    refine sweepAll_from hx ⟨[], hnodes, rfl⟩ (.inr ⟨rfl, hnodes⟩) ?_
    simp only [List.length_cons]
    omega

end

/-! ### Refusals -/

/-- The codes of a package or snapshot that is not taken. -/
def Applied.refuses : Applied → Bool
  | .applied => false
  | .diverged => false
  | _ => true

/-- What a call leaves: the slot it found when it refuses, and otherwise a slot at the header's place,
after `n` passes over the records of the scan. -/
structure Outcome.Sound (slot : Slot) (data : Bytes) (n : ℕ) (o : Outcome) : Prop where
  refused : o.code.refuses = true → o.slot = slot
  taken : o.code.refuses = false → ∃ head cur records, packHead data = some (head, cur) ∧
    scan head.type head.flags cur = some records ∧ o.passes = List.replicate n records ∧
    o.slot.syncing = false ∧ o.slot.seq = head.seq

theorem Outcome.Sound.of_refused {slot : Slot} {data : Bytes} {n : ℕ} {code : Applied}
    (h : code.refuses = true) : Outcome.Sound slot data n ⟨code, slot, []⟩ where
  refused _ := rfl
  taken h' := by
    rw [h] at h'
    cases h'

theorem refuses_hash {p : Prop} [Decidable p] :
    (if p then Applied.diverged else Applied.applied).refuses = false := by
  split
  · rfl
  · rfl

section

variable (crc : Bytes → ℕ) (bal : Balance LiveNode.id) (siphash : Bytes → Bytes → UInt64) (w : World)
  (ds : DatasetLimits) (slot : Slot) (data : Bytes)

theorem sound_applyPackage :
    ∃ o, applyPackage crc bal siphash w ds slot data = some o ∧ o.Sound slot data 1 := by
  have hno (code : Applied) (h : code.refuses = true) :
      ∃ o : Outcome, some (⟨code, slot, []⟩ : Outcome) = some o ∧ o.Sound slot data 1 :=
    ⟨_, rfl, .of_refused h⟩
  unfold applyPackage
  cases hhead : packHead data with
  | none => exact hno _ rfl
  | some hc =>
    obtain ⟨head, cur⟩ := hc
    simp only
    split
    · exact hno _ rfl
    split
    · exact hno _ rfl
    cases hscan : scan head.type head.flags cur with
    | none => exact hno _ rfl
    | some records =>
      simp only
      split
      · exact hno _ rfl
      split
      · exact hno _ rfl
      split
      · exact hno _ rfl
      split
      · exact hno _ rfl
      obtain ⟨t, ht, hseen, -⟩ := batches_of_scan (P := fun _ => True)
        (f := packageRecord crc bal siphash w (liveGen slot)) (fun _ _ _ _ => trivial) hscan
        { slot with syncing := true } trivial
      rw [ht]
      refine ⟨_, rfl, ?_, fun _ => ⟨head, cur, records, hhead, hscan, ?_, rfl, rfl⟩⟩
      · intro h
        rw [refuses_hash] at h
        cases h
      · rw [hseen]
        rfl

theorem exact_markRecord {crc : Bytes → ℕ} (gen i : ℕ) {slot : Slot} (r : Record)
    (hx : Exact crc slot) : Exact crc (markRecord crc gen i slot r) := by
  unfold markRecord
  split
  · exact exact_liveMark hx r.key gen
  · exact hx

theorem sound_applySnapshot (hx : Exact crc slot) :
    ∃ o, applySnapshot crc bal siphash w ds slot data = some o ∧ o.Sound slot data 2 := by
  have hno (code : Applied) (h : code.refuses = true) :
      ∃ o : Outcome, some (⟨code, slot, []⟩ : Outcome) = some o ∧ o.Sound slot data 2 :=
    ⟨_, rfl, .of_refused h⟩
  unfold applySnapshot
  cases hhead : packHead data with
  | none => exact hno _ rfl
  | some hc =>
    obtain ⟨head, start⟩ := hc
    simp only
    split
    · exact hno _ rfl
    split
    · exact hno _ rfl
    cases hscan : scan head.type head.flags start with
    | none => exact hno _ rfl
    | some records =>
      simp only
      split
      · exact hno _ rfl
      split
      · exact hno _ rfl
      split
      · exact hno _ rfl
      cases hbegin : liveBegin slot (w.room records.length).1 with
      | none => exact hno _ rfl
      | some gb =>
        obtain ⟨gen, begun⟩ := gb
        simp only
        have hb : Exact crc begun := exact_liveBegin hx hbegin
        have hbegun : Exact crc { begun with syncing := true } := hb
        obtain ⟨marked, hmarked, hseen, hmx⟩ := batches_of_scan
          (fun i _ r => exact_markRecord gen i r) hscan { begun with syncing := true } hbegun
        obtain ⟨swept, hswept, -⟩ := sweepAll_ends bal gen hmx
        obtain ⟨t, ht, hseen', -⟩ := batches_of_scan (P := fun _ => True)
          (f := snapshotRecord crc bal siphash w head.key gen) (fun _ _ _ _ => trivial) hscan swept
          trivial
        rw [hmarked, Option.bind_some, hswept, Option.bind_some, ht, Option.map_some]
        refine ⟨_, rfl, ?_, fun _ => ⟨head, start, records, hhead, hscan, ?_, rfl, rfl⟩⟩
        · intro h
          rw [refuses_hash] at h
          cases h
        · rw [hseen, hseen']
          rfl

end

/-- **A refused package or snapshot changes nothing.**  Both calls return.  A refusal leaves the slot
as it was; otherwise every pass has met the records of the scan, the slot is no longer syncing and
its sequence number is the header's. -/
theorem refused_changes_nothing (crc : Bytes → ℕ) (bal : Balance LiveNode.id)
    (siphash : Bytes → Bytes → UInt64) (w : World) (ds : DatasetLimits) (slot : Slot)
    (hx : Exact crc slot) (data : Bytes) :
    (∃ o, applyPackage crc bal siphash w ds slot data = some o ∧ o.Sound slot data 1) ∧
      ∃ o, applySnapshot crc bal siphash w ds slot data = some o ∧ o.Sound slot data 2 :=
  ⟨sound_applyPackage crc bal siphash w ds slot data,
    sound_applySnapshot crc bal siphash w ds slot data hx⟩

/-- The first byte of a key in place of its hash. -/
def headHash (_ key : Bytes) : UInt64 := (key.headD 0).toUInt64

/-- Time stands still, and there is memory. -/
def calmWorld : World := ⟨1000, 0, fun _ => (true, true)⟩

/-- A dataset of strings at sequence number 7 of epoch 1. -/
def stringSlot : Slot := ⟨.string, none, 0, 7, 1, List.replicate 16 0, 0, false, false⟩

/-- The dataset with the entries `0x62`, which has no end, and `0x63`, which has one. -/
def filledSlot : Slot :=
  (livePut Rate.crc32 (Balance.plain LiveNode.id)
    (livePut Rate.crc32 (Balance.plain LiveNode.id) stringSlot [0x62] 0 0x62 1 (true, true)).2
    [0x63] 6000 0x63 1 (true, true)).2

theorem exact_filledSlot : Exact Rate.crc32 filledSlot := by
  have hx : Exact Rate.crc32 stringSlot := rfl
  exact exact_livePut (exact_livePut hx [0x62] 0 0x62 1 (true, true)) [0x63] 6000 0x63 1 (true, true)

/-- A package of two records after sequence number 7 of epoch 1: `0x61` is added with the end 5000,
and `0x62` is removed. -/
def onePackage : Bytes :=
  [0x57, 0x41, 0x46, 0x53, 1, 2, 2, 0] ++ [1, 0, 0, 0, 0, 0, 0, 0] ++ [8, 0, 0, 0, 0, 0, 0, 0] ++
    [2, 0, 0, 0, 0, 0, 0, 0] ++ List.replicate 16 0 ++ [2, 0, 0, 0] ++
    [1, 1, 0, 0x61, 0x88, 0x13, 0, 0, 0, 0, 0, 0] ++ [2, 1, 0, 0x62, 0, 0, 0, 0, 0, 0, 0, 0]

theorem packHead_onePackage : packHead onePackage =
    some (⟨2, 2, 0, 1, 8, 2, List.replicate 16 0, 2⟩,
      [1, 1, 0, 0x61, 0x88, 0x13, 0, 0, 0, 0, 0, 0] ++ [2, 1, 0, 0x62, 0, 0, 0, 0, 0, 0, 0, 0]) := by
  decide +kernel

theorem scan_onePackage :
    scan 2 0 ([1, 1, 0, 0x61, 0x88, 0x13, 0, 0, 0, 0, 0, 0] ++
      [2, 1, 0, 0x62, 0, 0, 0, 0, 0, 0, 0, 0]) = some [⟨1, [0x61], 5000⟩, ⟨2, [0x62], 0⟩] := by
  decide +kernel

theorem refused_changes_nothing_one :
    ∃ o, applyPackage Rate.crc32 (Balance.plain LiveNode.id) headHash calmWorld ⟨.string, 10⟩
        filledSlot onePackage = some o ∧
      o.code = .applied ∧ o.slot.syncing = false ∧ o.slot.seq = 8 ∧
      o.passes = [[⟨1, [0x61], 5000⟩, ⟨2, [0x62], 0⟩]] := by
  obtain ⟨⟨o, ho, hsound⟩, -⟩ := refused_changes_nothing Rate.crc32 (Balance.plain LiveNode.id)
    headHash calmWorld ⟨.string, 10⟩ filledSlot exact_filledSlot onePackage
  have hcode : (applyPackage Rate.crc32 (Balance.plain LiveNode.id) headHash calmWorld ⟨.string, 10⟩
      filledSlot onePackage).map Outcome.code = some .applied := by decide +kernel
  rw [ho, Option.map_some, Option.some.injEq] at hcode
  obtain ⟨head, cur, records, hhead, hscan, hpasses, hsync, hseq⟩ := hsound.taken (by rw [hcode]; rfl)
  rw [packHead_onePackage, Option.some.injEq, Prod.mk.injEq] at hhead
  obtain ⟨rfl, rfl⟩ := hhead
  rw [scan_onePackage, Option.some.injEq] at hscan
  rw [← hscan] at hpasses
  exact ⟨o, ho, hcode, hsync, hseq, hpasses⟩

end Dataset
