import PlacitumNode.Lib.Numerals
import PlacitumNode.Slot.Table

/-!
# Replies on the bus (`bus/ngx_http_waf_bus_nats.c`)

A message to an inspector is published with a reply subject that names the request and the inspector.
The answer comes back under that subject, and the subject alone says where it belongs.

* `replySubject`: what `ngx_http_waf_nats_publish` writes;
* `natsMsgLine`, `natsRoute`, `ridParse`: how a line from the bus is read;
* `natsRoute_verdict_iff`: the subjects that are routed as replies, and to which pair;
* `reply_routing`: publishing is inverted, and no two pairs share a subject.
-/

namespace Bus

open Octets Numerals Slots

/-! ### Writing -/

/-- `ngx_http_waf_bus_inbox_build` -/
def inboxBuild (nodeId : Bytes) (pid nonce : ℕ) : Bytes :=
  ascii "_INBOX.waf." ++ nodeId ++ [46] ++ decimal pid ++ [46] ++ hexPad 8 nonce

/-- The reply subject of `ngx_http_waf_nats_publish`, behind the inbox as `ngx_http_waf_nats_pub` puts
it. -/
def replySubject (inbox : Bytes) (rid inspector : ℕ) : Bytes :=
  inbox ++ [46] ++ (ascii "v." ++ ridHex rid ++ [46] ++ hexPad 2 inspector)

/-! ### Reading -/

/-- The digits that `ngx_http_waf_rid_parse` accepts. -/
def ridDigit (c : UInt8) : Option ℕ :=
  if 48 ≤ c ∧ c ≤ 57 then some (c.toNat - 48)
  else if 97 ≤ c ∧ c ≤ 102 then some (c.toNat - 97 + 10)
  else none

def ridParseFrom : ℕ → Bytes → Option ℕ
  | v, [] => some v
  | v, c :: cs =>
    match ridDigit c with
    | none => none
    | some d => ridParseFrom ((v <<< 4) % 2 ^ 64 ||| d) cs

/-- `ngx_http_waf_rid_parse` -/
def ridParse (hex : Bytes) : Option ℕ := if hex.length ≠ 16 then none else ridParseFrom 0 hex

/-- `NGX_HTTP_WAF_NATS_KIND_*` with the fields that belong to each. -/
inductive Routed
  | verdict (rid index : ℕ)
  | dataset (index : ℕ)
  | jsReply (index : ℕ)
  deriving DecidableEq

/-- What stands before and behind the last dot. -/
def lastDot (s : Bytes) : Option (Bytes × Bytes) :=
  let tail := (s.reverse.takeWhile (· ≠ 46)).reverse
  if tail.length = s.length then none else some (s.take (s.length - tail.length - 1), tail)

/-- `ngx_http_waf_nats_route` -/
def natsRoute (sid subject : Bytes) : Option Routed :=
  match sid with
  | [] => none
  | c :: rest =>
    if c = 100 then
      match atoi rest with
      | none => none
      | some n => if n ≥ 128 then none else some (.dataset n)
    else
      match lastDot subject with
      | none => none
      | some (before, tail) =>
        if rest = [] ∧ c = 50 then
          match atoi tail with
          | none => none
          | some n => if n ≥ 128 then none else some (.jsReply n)
        else
          match hextoi tail with
          | none => none
          | some n =>
            if n ≥ 64 then none
            else if before.length < 16 then none
            else (ridParse (before.drop (before.length - 16))).map fun rid => .verdict rid n

def isBlank (c : UInt8) : Bool := c = 32 || c = 9

/-- `ngx_http_waf_nats_token`, until `n` tokens are read. -/
def natsTokens : ℕ → Bytes → List Bytes
  | 0, _ => []
  | n + 1, line =>
    let line := line.dropWhile isBlank
    if line = [] then []
    else
      line.takeWhile (fun c => !isBlank c) :: natsTokens n (line.dropWhile fun c => !isBlank c)

/-- The fields of `ngx_http_waf_nats_t` that a message line sets. -/
structure NatsMsg where
  total : ℕ
  hdr : ℕ
  routed : Option Routed
  valid : Bool
  skip : ℕ
  deriving DecidableEq

/-- `ngx_http_waf_nats_msg_line`; `none` is `NGX_ERROR`.  `collects` is the answer of the allocation
for a message that is larger than the input buffer. -/
def natsMsgLine (inSize payloadMax : ℕ) (collects : Bool) (line : Bytes) (withHeaders : Bool) :
    Option NatsMsg :=
  let tokens := natsTokens 5 line
  if tokens.length < (if withHeaders then 4 else 3) then none
  else
    match atoi (tokens.getD (tokens.length - 1) []),
        if withHeaders then atoi (tokens.getD (tokens.length - 2) []) else some 0 with
    | some n, some hdr =>
      if withHeaders ∧ hdr > n then none
      else
        let routed := natsRoute (tokens.getD 1 []) (tokens.getD 0 [])
        if n + 2 ≤ inSize then some ⟨n, hdr, routed, routed.isSome, 0⟩
        else
          match routed with
          | some (.dataset i) =>
            if n ≤ payloadMax ∧ collects = true then some ⟨n, hdr, some (.dataset i), true, 0⟩
            else some ⟨n, hdr, some (.dataset i), false, n + 2⟩
          | routed => some ⟨n, hdr, routed, false, n + 2⟩
    | _, _ => none

/-! ### The number of a request -/

theorem ridDigit_eq_some {c : UInt8} {d : ℕ} : ridDigit c = some d ↔ d < 16 ∧ c = hexDigit d := by
  have hall : ∀ n < 256, ∀ d < 16, ridDigit (UInt8.ofNat n) = some d ↔ UInt8.ofNat n = hexDigit d := by
    decide +kernel
  have hlt : ∀ n < 256, ∀ d, ridDigit (UInt8.ofNat n) = some d → d < 16 := by
    intro n hn d hd
    have hsmall : ∀ n < 256, (ridDigit (UInt8.ofNat n)).getD 0 < 16 := by decide +kernel
    simpa [hd] using hsmall n hn
  have hc : UInt8.ofNat c.toNat = c := UInt8.ofNat_toNat
  have h256 := c.toNat_lt
  constructor
  · intro hd
    have h16 := hlt c.toNat h256 d (by rwa [hc])
    have := (hall c.toNat h256 d h16).1 (by rwa [hc])
    rw [hc] at this
    exact ⟨h16, this⟩
  · rintro ⟨h16, hd⟩
    have := (hall c.toNat h256 d h16).2 (by rwa [hc])
    rwa [hc] at this

theorem ridParseFrom_append (v : ℕ) (cs ds : Bytes) :
    ridParseFrom v (cs ++ ds) = (ridParseFrom v cs).bind fun u => ridParseFrom u ds := by
  induction cs generalizing v with
  | nil => rfl
  | cons c cs ih =>
    simp only [List.cons_append, ridParseFrom]
    cases ridDigit c with
    | none => rfl
    | some d => exact ih _

/-- A digit more. -/
theorem shift_or {u d : ℕ} (hu : u < 16 ^ 15) (hd : d < 16) : (u <<< 4) % 2 ^ 64 ||| d = u * 16 + d := by
  have hshift : u <<< 4 = u * 16 := by rw [Nat.shiftLeft_eq]
  have hlt : u * 16 < 2 ^ 64 := by omega
  rw [hshift, Nat.mod_eq_of_lt hlt, ← hshift]
  exact (Nat.shiftLeft_add_eq_or_of_lt (by simpa using hd) u).symm.trans (by rw [hshift])

/-- The digits of at most sixteen places say the number, and only its own digits do. -/
theorem ridParseFrom_iff {cs : Bytes} (hlen : cs.length ≤ 16) {rid : ℕ} :
    ridParseFrom 0 cs = some rid ↔ cs = hexField cs.length rid ∧ rid < 16 ^ cs.length := by
  induction cs using List.reverseRecOn generalizing rid with
  | nil => simp [ridParseFrom, hexField, eq_comm]
  | append_singleton cs c ih =>
    rw [List.length_append, List.length_singleton] at hlen
    have hsmall : ∀ u, u < 16 ^ cs.length → u < 16 ^ 15 := fun u hu =>
      lt_of_lt_of_le hu (Nat.pow_le_pow_right (by norm_num) (by omega))
    rw [ridParseFrom_append, List.length_append, List.length_singleton, hexField, Option.bind_eq_some_iff]
    constructor
    · rintro ⟨u, hu, hstep⟩
      obtain ⟨hcs, hult⟩ := (ih (by omega)).1 hu
      simp only [ridParseFrom] at hstep
      cases hd : ridDigit c with
      | none =>
        rw [hd] at hstep
        cases hstep
      | some d =>
        rw [hd] at hstep
        obtain ⟨h16, rfl⟩ := ridDigit_eq_some.1 hd
        have hrid : u * 16 + d = rid := by
          rw [← shift_or (hsmall u hult) h16]
          exact Option.some.inj hstep
        have hq : rid / 16 = u := by omega
        have hr : rid % 16 = d := by omega
        rw [hq, hr, ← hcs, pow_succ]
        exact ⟨rfl, by omega⟩
    · rintro ⟨happ, hlt⟩
      obtain ⟨hcs, hc⟩ := List.append_inj happ (by simp)
      have hq : rid / 16 < 16 ^ cs.length := Nat.div_lt_of_lt_mul (by rwa [pow_succ'] at hlt)
      refine ⟨rid / 16, (ih (by omega)).2 ⟨hcs, hq⟩, ?_⟩
      have hd : ridDigit c = some (rid % 16) :=
        ridDigit_eq_some.2 ⟨Nat.mod_lt _ (by norm_num), List.singleton_inj.1 hc⟩
      simp only [ridParseFrom, hd]
      rw [shift_or (hsmall _ hq) (Nat.mod_lt _ (by norm_num)), Nat.div_add_mod' rid 16]

/-- **A number is read from its own sixteen digits only.** -/
theorem ridParse_iff {hex : Bytes} {rid : ℕ} :
    ridParse hex = some rid ↔ hex = ridHex rid ∧ rid < 2 ^ 64 := by
  unfold ridParse ridHex
  by_cases hlen : hex.length = 16
  · have hpow : (16 : ℕ) ^ 16 = 2 ^ 64 := by norm_num
    rw [if_neg (not_not.2 hlen), ridParseFrom_iff hlen.le, hlen, hpow]
  · rw [if_pos hlen]
    refine iff_of_false (by simp) fun h => hlen ?_
    rw [h.1, length_hexField]

/-! ### The last dot -/

theorem lastDot_iff {s before tail : Bytes} :
    lastDot s = some (before, tail) ↔ s = before ++ 46 :: tail ∧ 46 ∉ tail := by
  have hsplit : s = (s.reverse.dropWhile (· ≠ 46)).reverse ++ (s.reverse.takeWhile (· ≠ 46)).reverse := by
    rw [← List.reverse_append, List.takeWhile_append_dropWhile, List.reverse_reverse]
  have hin : (46 : UInt8) ∉ (s.reverse.takeWhile (· ≠ 46)).reverse := by
    rw [List.mem_reverse]
    intro hmem
    simpa using List.mem_takeWhile_imp hmem
  constructor
  · intro h
    unfold lastDot at h
    simp only at h
    split at h
    · cases h
    next hne =>
    simp only [Option.some.injEq, Prod.mk.injEq] at h
    obtain ⟨rfl, rfl⟩ := h
    refine ⟨?_, hin⟩
    cases hdrop : s.reverse.dropWhile (· ≠ 46) with
    | nil =>
      rw [hdrop] at hsplit
      exact absurd (congrArg List.length hsplit.symm) hne
    | cons c rest =>
      have hc : c = 46 := by
        have hhead := List.head?_dropWhile_not (· ≠ (46 : UInt8)) s.reverse
        rw [hdrop] at hhead
        simpa using hhead
      rw [hdrop, List.reverse_cons, List.append_assoc, hc] at hsplit
      have hlen := congrArg List.length hsplit
      simp only [List.length_append, List.length_singleton] at hlen
      have htake : s.take (s.length - (s.reverse.takeWhile (· ≠ 46)).reverse.length - 1) =
          rest.reverse := by
        rw [show s.length - (s.reverse.takeWhile (· ≠ 46)).reverse.length - 1 = rest.reverse.length by
          omega]
        conv_lhs => rw [hsplit]
        exact List.take_left
      rw [htake]
      exact hsplit
  · rintro ⟨rfl, hout⟩
    have htail : ((before ++ 46 :: tail).reverse.takeWhile (· ≠ 46)).reverse = tail := by
      rw [List.reverse_append, List.reverse_cons, List.append_assoc, List.takeWhile_append_of_pos]
      · simp
      · intro c hc
        simp only [ne_eq, decide_eq_true_eq]
        rintro rfl
        exact hout (List.mem_reverse.1 hc)
    unfold lastDot
    simp only [htail]
    rw [if_neg (by rw [List.length_append, List.length_cons]; omega), List.length_append,
      List.length_cons]
    have hlen : before.length + (tail.length + 1) - tail.length - 1 = before.length := by omega
    rw [hlen, List.take_left]

/-! ### Routing -/

/-- The subscription of the replies: neither that of the snapshots nor one of the datasets. -/
def Replies (sid : Bytes) : Prop := sid ≠ [] ∧ sid.head? ≠ some 100 ∧ sid ≠ [50]

/-- **The subjects that are routed as replies.**  The number of the request is in its own sixteen digits
before the last dot, and the inspector is any hexadecimal numeral behind it. -/
theorem natsRoute_verdict_iff {sid subject : Bytes} {rid i : ℕ} :
    natsRoute sid subject = some (.verdict rid i) ↔
      Replies sid ∧ rid < 2 ^ 64 ∧ i < 64 ∧ ∃ before tail, subject = before ++ ridHex rid ++ 46 :: tail ∧
        46 ∉ tail ∧ hextoi tail = some i := by
  cases sid with
  | nil => simp [natsRoute, Replies]
  | cons c rest =>
    unfold natsRoute Replies
    simp only [ne_eq, reduceCtorEq, not_false_eq_true, List.head?_cons, Option.some.injEq,
      List.cons.injEq, true_and]
    by_cases hds : c = 100
    · simp only [hds, if_true, not_true_eq_false, false_and, iff_false]
      cases atoi rest with
      | none => simp
      | some n =>
        simp only
        split <;> simp
    simp only [hds, if_false, not_false_eq_true, true_and]
    by_cases hjs : c = 50 ∧ rest = []
    · simp only [hjs, and_self, if_true, not_true_eq_false, false_and, iff_false]
      cases lastDot subject with
      | none => simp
      | some parts =>
        simp only
        cases atoi parts.2 with
        | none => simp
        | some n =>
          simp only
          split <;> simp
    simp only [and_comm (a := rest = []), hjs, if_false, not_false_eq_true, true_and]
    constructor
    · intro h
      cases hdot : lastDot subject with
      | none =>
        rw [hdot] at h
        cases h
      | some parts =>
        obtain ⟨before, tail⟩ := parts
        rw [hdot] at h
        simp only at h
        cases hhex : hextoi tail with
        | none =>
          rw [hhex] at h
          cases h
        | some n =>
          rw [hhex] at h
          simp only at h
          split_ifs at h with hn hlen
          obtain ⟨rid', hparse, hpair⟩ := Option.map_eq_some_iff.1 h
          cases hpair
          obtain ⟨hhead, hlt⟩ := ridParse_iff.1 hparse
          obtain ⟨hsub, hout⟩ := lastDot_iff.1 hdot
          refine ⟨hlt, Nat.lt_of_not_ge hn, before.take (before.length - 16), tail, ?_, hout, hhex⟩
          rw [hsub, ← hhead, List.take_append_drop]
    · rintro ⟨hlt, hi, before, tail, rfl, hout, hhex⟩
      have hdot : lastDot (before ++ ridHex rid ++ 46 :: tail) = some (before ++ ridHex rid, tail) :=
        lastDot_iff.2 ⟨rfl, hout⟩
      have hlen : (ridHex rid).length = 16 := length_hexField 16 rid
      rw [hdot]
      simp only [hhex]
      rw [if_neg (Nat.not_le.2 hi), if_neg (by rw [List.length_append]; omega)]
      have hdrop : (before ++ ridHex rid).drop ((before ++ ridHex rid).length - 16) = ridHex rid := by
        rw [List.length_append, hlen, Nat.add_sub_cancel, List.drop_left]
      rw [hdrop, ridParse_iff.2 ⟨rfl, hlt⟩, Option.map_some]

/-- **Publishing is inverted.**  Whatever the inbox, the reply subject of a request and an inspector is
routed to them. -/
theorem natsRoute_replySubject (inbox : Bytes) {sid : Bytes} (hsid : Replies sid) {rid i : ℕ}
    (hrid : rid < 2 ^ 64) (hi : i < 64) :
    natsRoute sid (replySubject inbox rid i) = some (.verdict rid i) := by
  have hpad : hexPad 2 i = hexField 2 i := hexPad_two (by omega)
  have hread : hextoi (hexField 2 i) = some i :=
    hextoi_hexField (by norm_num) (by omega) (by unfold maxInt; omega)
  have hout : 46 ∉ hexField 2 i := by
    have hall : ∀ i < 64, (46 : UInt8) ∉ hexField 2 i := by decide
    exact hall i hi
  refine natsRoute_verdict_iff.2 ⟨hsid, hrid, hi, inbox ++ [46] ++ ascii "v.", hexField 2 i, ?_, hout,
    hread⟩
  rw [replySubject, hpad]
  simp only [List.append_assoc, List.cons_append, List.nil_append]

/-! ### Lines -/

/-- A message under a subject is routed by it, whatever follows on the line. -/
theorem natsMsgLine_routed {inSize payloadMax : ℕ} {collects withHeaders : Bool} {line : Bytes}
    {msg : NatsMsg} (h : natsMsgLine inSize payloadMax collects line withHeaders = some msg) :
    msg.routed = natsRoute ((natsTokens 5 line).getD 1 []) ((natsTokens 5 line).getD 0 []) := by
  unfold natsMsgLine at h
  generalize natsTokens 5 line = tokens at h ⊢
  simp only at h
  by_cases hfew : tokens.length < if withHeaders then 4 else 3
  · rw [if_pos hfew] at h
    cases h
  rw [if_neg hfew] at h
  generalize (if withHeaders = true then atoi (tokens.getD (tokens.length - 2) []) else some 0) = head
    at h
  generalize natsRoute (tokens.getD 1 []) (tokens.getD 0 []) = routed at h ⊢
  cases hn : atoi (tokens.getD (tokens.length - 1) []) with
  | none =>
    rw [hn] at h
    cases h
  | some n =>
    rw [hn] at h
    cases head with
    | none => cases h
    | some hdr =>
      simp only at h
      by_cases hover : withHeaders = true ∧ hdr > n
      · rw [if_pos hover] at h
        cases h
      rw [if_neg hover] at h
      by_cases hsize : n + 2 ≤ inSize
      · rw [if_pos hsize] at h
        cases h
        rfl
      rw [if_neg hsize] at h
      cases routed with
      | none =>
        cases h
        rfl
      | some r =>
        cases r with
        | dataset k =>
          simp only at h
          split at h <;> cases h <;> rfl
        | verdict => cases h; rfl
        | jsReply => cases h; rfl

/-! ### The result -/

/-- **Reply routing.**  A reply subject that comes back on a line from the bus is routed to its request
and inspector; a subject that is routed as a reply says one pair and is the reply subject of no other;
two pairs never share a reply subject; and a number is read back from its digits. -/
theorem reply_routing (inbox : Bytes) :
    (∀ rid < 2 ^ 64, ∀ i < 64, ∀ sid, Replies sid →
      natsRoute sid (replySubject inbox rid i) = some (.verdict rid i)) ∧
    (∀ rid < 2 ^ 64, ∀ i < 64, ∀ inSize payloadMax collects line withHeaders msg sid rest,
      Replies sid → natsTokens 5 line = replySubject inbox rid i :: sid :: rest →
      natsMsgLine inSize payloadMax collects line withHeaders = some msg →
      msg.routed = some (.verdict rid i)) ∧
    (∀ sid subject rid i, natsRoute sid subject = some (.verdict rid i) →
      rid < 2 ^ 64 ∧ i < 64 ∧
      (∃ before tail, subject = before ++ ridHex rid ++ 46 :: tail ∧ 46 ∉ tail ∧
        hextoi tail = some i) ∧
      ∀ inbox', ∀ rid' < 2 ^ 64, ∀ i' < 64, replySubject inbox' rid' i' = subject →
        rid' = rid ∧ i' = i) ∧
    (∀ rid < 2 ^ 64, ∀ i < 64, ∀ rid' < 2 ^ 64, ∀ i' < 64,
      replySubject inbox rid i = replySubject inbox rid' i' → rid = rid' ∧ i = i') ∧
    ∀ rid < 2 ^ 64, ridParse (ridHex rid) = some rid := by
  have hroute := fun rid (hrid : rid < 2 ^ 64) i (hi : i < 64) sid (hsid : Replies sid) =>
    natsRoute_replySubject inbox hsid hrid hi
  refine ⟨hroute, ?_, ?_, ?_, fun rid hrid => ridParse_iff.2 ⟨rfl, hrid⟩⟩
  · intro rid hrid i hi inSize payloadMax collects line withHeaders msg sid rest hsid htok hmsg
    rw [natsMsgLine_routed hmsg, htok]
    exact hroute rid hrid i hi sid hsid
  · intro sid subject rid i h
    obtain ⟨hsid, hrid, hi, hform⟩ := natsRoute_verdict_iff.1 h
    refine ⟨hrid, hi, hform, fun inbox' rid' hrid' i' hi' heq => ?_⟩
    have hback := natsRoute_replySubject inbox' hsid hrid' hi'
    rw [heq, h] at hback
    cases hback
    exact ⟨rfl, rfl⟩
  · intro rid hrid i hi rid' hrid' i' hi' heq
    have hsid : Replies [49] := ⟨by simp, by simp, by simp⟩
    have h := hroute rid hrid i hi [49] hsid
    rw [heq, hroute rid' hrid' i' hi' [49] hsid] at h
    cases h
    exact ⟨rfl, rfl⟩

/-- A subject behind the inbox of the node with one upper-case digit for the inspector. -/
def looseSubject : Bytes :=
  inboxBuild (ascii "node") 7 5 ++ ascii ".v.000000000000002a.A"

/-- It is routed as a reply of inspector 10 to request 42, although the node never gives it out. -/
theorem loose_subject_routed :
    natsRoute [49] looseSubject = some (.verdict 42 10) ∧
      ∀ inbox, ∀ rid < 2 ^ 64, ∀ i < 64, replySubject inbox rid i ≠ looseSubject := by
  refine ⟨by decide +kernel, fun inbox rid _ i hi heq => ?_⟩
  have hlast : looseSubject.getLast? = some 65 := by decide +kernel
  rw [← heq, replySubject, hexPad_two (by omega)] at hlast
  have hdigit : ∀ i < 64, (hexField 2 i).getLast? ≠ some 65 := by decide
  have hne : hexField 2 i ≠ [] := by simp [hexField]
  rw [← List.append_assoc, List.getLast?_append_of_ne_nil _ hne] at hlast
  exact hdigit i hi hlast

end Bus
