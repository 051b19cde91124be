import PlacitumNode.Dataset.Books
import PlacitumNode.Dataset.Cidr
import PlacitumNode.Rate.Account

/-!
# Local bans

`ngx_http_waf_dataset_put` stores a ban of the node itself in the live overlay, for a number of
seconds from now on.  A ban is meant to add protection; a standing entry of the keeper that never
expires is the one it takes away from.

* `material`, `datasetPut`: the key of a ban, and the put;
* `Slot.find`, `find_livePut_other`, `find_livePut_self`: what the overlay finds after it;
* `Protects`: what a ban must not take away, and what it must give;
* `local_ban_protects_iff`: when it does.
-/

namespace Dataset

open Octets Machine SearchTree

/-! ### The put -/

/-- The part of `ngx_http_waf_dataset_t` a ban reads. -/
structure DatasetConf where
  type : DsType
  md5 : Bool

section

variable (crc : Bytes → ℕ) (bal : Balance LiveNode.id)
variable (inetAddr : Bytes → Fixed 4) (inet6Addr : Bytes → Option (Fixed 16))
variable (md5Hex : Bytes → Bytes)

/-- `ngx_http_waf_ds_material`: bans are for single addresses. -/
def material (type : DsType) (value : Bytes) (binary : Bool) : Option Bytes :=
  if type ≠ .cidr then some value
  else
    match dsAddr inetAddr inet6Addr value binary with
    | none => none
    | some (.v4 a) => some (4 :: 32 :: a.1)
    | some (.v6 a) => some (6 :: 128 :: a.1)

/-- The bytes a ban is stored under. -/
def banKey (ds : DatasetConf) (value : Bytes) (binary : Bool) : Option Bytes :=
  material inetAddr inet6Addr ds.type (if ds.md5 then md5Hex value else value) binary

/-- The end of a ban, in the words of the clock. -/
def banEnd (now ttl : ℕ) : ℕ := (now + ttl * 1000) % 2 ^ 64

/-- `ngx_http_waf_dataset_put`, up to the event it publishes. -/
def datasetPut (ds : DatasetConf) (slot : Slot) (value : Bytes) (binary : Bool) (ttl now : ℕ)
    (room : Bool × Bool) : Rc × Slot :=
  if value.length = 0 ∨ ttl = 0 then (.error, slot)
  else
    match banKey inetAddr inet6Addr md5Hex ds value binary with
    | none => (.declined, slot)
    | some key =>
      let r := livePut crc bal slot key (banEnd now ttl) 0 (liveGen slot) room
      (if r.1 = .declined then .declined else if r.1 ≠ .ok then .error else .ok, r.2)

end

/-! ### What the overlay finds -/

section

variable (crc : Bytes → ℕ)

def Slot.find (slot : Slot) (key : Bytes) : Option LiveNode :=
  slot.live.bind fun live => liveLookup crc live key

variable {crc} {bal : Balance LiveNode.id} {slot : Slot} {key key' : Bytes} {ln : LiveNode}
  {expires gen : ℕ} {h : UInt64} {room : Bool × Bool}

theorem find_eq_some (hx : Exact crc slot) :
    slot.find crc key = some ln ↔ ln ∈ slot.nodes ∧ ln.data = key := by
  unfold Slot.find
  cases hl : slot.live with
  | none => simp [Slot.nodes, hl]
  | some live =>
    rw [Option.bind_some, Slot.nodes_of hl]
    exact liveLookup_eq_some (hx.books hl)

theorem liveHit_iff (slot : Slot) (key : Bytes) (t : ℕ) :
    liveHit crc slot key t = true ↔
      key.length ≠ 0 ∧ ∃ ln, slot.find crc key = some ln ∧ ln.lasts t = true := by
  unfold liveHit Slot.find
  cases slot.live with
  | none => simp
  | some live =>
    simp only [Option.bind_some]
    split
    · next h0 => simp [h0]
    · next h0 => simp [h0, Option.any_eq_true]

theorem find_ensure {live : Live} {ensured : Bool} (hx : Exact crc slot)
    (he : liveEnsure ensured slot = some live) (key : Bytes) :
    liveLookup crc live key = slot.find crc key := by
  refine Option.ext fun ln => ?_
  rw [liveLookup_eq_some (hx.ensure he), find_eq_some hx, nodes_ensure he]

/-- **A put leaves the other keys alone.** -/
theorem find_livePut_other (hx : Exact crc slot) (hne : key' ≠ key) :
    (livePut crc bal slot key expires h gen room).2.find crc key' = slot.find crc key' := by
  have hx' : Exact crc (livePut crc bal slot key expires h gen room).2 :=
    exact_livePut hx key expires h gen room
  refine Option.ext fun a => ?_
  rw [find_eq_some hx', find_eq_some hx]
  have hput := put_livePut crc bal slot key expires h gen room
  generalize (livePut crc bal slot key expires h gen room).1 = rc at hput
  generalize (livePut crc bal slot key expires h gen room).2 = slot' at hput ⊢
  refine and_congr_left fun hdata => ?_
  cases hput with
  | refused => rfl
  | unstored he => rw [Slot.nodes_of rfl, nodes_ensure he]
  | @renewed live ln f rc left he hsome hid =>
    have hb := hx.ensure he
    obtain ⟨hmem, hkey⟩ := liveLookup_some hb hsome
    rw [Slot.nodes_of rfl, (modify_perm hb.ordered hmem).mem_iff, List.mem_cons, List.mem_filter,
      nodes_ensure he]
    constructor
    · rintro (rfl | ⟨ha, -⟩)
      · exact absurd (hdata.symm.trans ((hid ln).2.trans hkey)) hne
      · exact ha
    · intro ha
      refine .inr ⟨ha, decide_eq_true fun hid => hne ?_⟩
      rw [← hdata, ← hkey]
      exact congrArg Prod.snd hid
  | stored he hnone hroom hkey ht =>
    rw [Slot.nodes_of rfl, ht, bal.toList_fix, (insert_perm liveCmp LiveNode.id _ _).mem_iff,
      List.mem_cons, nodes_ensure he]
    constructor
    · rintro (rfl | ha)
      · exact absurd hdata.symm hne
      · exact ha
    · exact .inr

/-- The overlay takes a ban: it lengthens what stands, or there is room for it. -/
def Slot.Takes (crc : Bytes → ℕ) (slot : Slot) (key : Bytes) (expires : ℕ) (room : Bool × Bool) :
    Prop :=
  key.length ≠ 0 ∧ key.length ≤ entryMax ∧ liveBits slot.type key ≠ .error ∧
    match slot.find crc key with
    | some ln => ¬ Shorter expires ln
    | none =>
      (slot.live.map Live.n).getD 0 < slot.liveLimit ∧ (slot.live = none → room.1 = true) ∧
        room.2 = true

theorem livePut_ok_iff (hx : Exact crc slot) :
    (livePut crc bal slot key expires 0 gen room).1 = .ok ↔ slot.Takes crc key expires room := by
  unfold livePut Slot.Takes
  by_cases hlen : key.length = 0 ∨ key.length > entryMax
  · rw [if_pos hlen]
    refine iff_of_false (by simp) fun h => ?_
    rcases hlen with h0 | hgt
    · exact h.1 h0
    · exact absurd h.2.1 (Nat.not_le.2 hgt)
  rw [if_neg hlen]
  obtain ⟨hpos, hshort⟩ := not_or.1 hlen
  have hshort := Nat.le_of_not_gt hshort
  by_cases hbits : liveBits slot.type key = .error
  · simp [hbits]
  simp only [if_neg hbits]
  simp only [hpos, hshort, hbits, ne_eq, not_false_eq_true, true_and]
  cases he : liveEnsure room.1 slot with
  | none =>
    have hnone : slot.live = none ∧ room.1 = false := by
      unfold liveEnsure at he
      cases hl : slot.live with
      | some live => simp [hl] at he
      | none =>
        rw [hl] at he
        simpa using he
    simp [Slot.find, hnone.1, hnone.2]
  | some live =>
    simp only [find_ensure hx he]
    have hmax := liveEnsure_max he
    have hroom : slot.live = none → room.1 = true := by
      intro hl
      unfold liveEnsure at he
      rw [hl] at he
      by_contra hr
      simp [hr] at he
    cases hfind : slot.find crc key with
    | some ln =>
      simp only [not_true_eq_false, if_false, Shorter]
      split
      · next hs => simp [hs]
      · next hs => simp [hs]
    | none =>
      simp only [← hmax.1, ← hmax.2]
      by_cases hfull : live.n ≥ live.max
      · simp [hfull]
      · cases hr : room.2 with
        | false => simp [hfull]
        | true => simpa [hfull] using ⟨Nat.lt_of_not_ge hfull, hroom⟩

/-- The put has left its expiry in the entry of its key. -/
def Stored (h : UInt64) (rc : Rc) : Prop := rc = .ok ∨ rc = .declined ∧ h ≠ 0

instance (h : UInt64) (rc : Rc) : Decidable (Stored h rc) := inferInstanceAs (Decidable (_ ∨ _))

/-- The key of a put: the expiry when it is stored, and what stood there when it is not. -/
theorem find_livePut_self (hx : Exact crc slot) :
    ((livePut crc bal slot key expires h gen room).2.find crc key).map LiveNode.expires =
      if Stored h (livePut crc bal slot key expires h gen room).1 then some expires
      else (slot.find crc key).map LiveNode.expires := by
  have hx' : Exact crc (livePut crc bal slot key expires h gen room).2 :=
    exact_livePut hx key expires h gen room
  have hput := put_livePut crc bal slot key expires h gen room
  generalize (livePut crc bal slot key expires h gen room).1 = rc at hput ⊢
  generalize (livePut crc bal slot key expires h gen room).2 = slot' at hput hx' ⊢
  have hfound (ln : LiveNode) (hmem : ln ∈ slot'.nodes) (hdata : ln.data = key) :
      slot'.find crc key = some ln := (find_eq_some hx').2 ⟨hmem, hdata⟩
  cases hput with
  | refused =>
    rw [if_neg]
    simp [Stored]
  | @unstored live rc he hnone hrc =>
    have hne : ¬ Stored h rc := by rcases hrc with rfl | rfl <;> simp [Stored]
    rw [if_neg hne, ← find_ensure hx he]
    rfl
  | @renewed live ln f rc left he hsome hid hf hleft =>
    have hb := hx.ensure he
    obtain ⟨hmem, hkey⟩ := liveLookup_some hb hsome
    have hmem' : f ln ∈ (live.tree.modify LiveNode.id ln.id f).toList :=
      (modify_perm hb.ordered hmem).mem_iff.2 List.mem_cons_self
    rw [hfound (f ln) hmem' ((hid ln).2.trans hkey), ← find_ensure hx he, hsome, hf]
    rcases hleft with ⟨h0, rfl, rfl | rfl⟩ | ⟨h0, -, rfl, rfl⟩ | ⟨h0, -, rfl, rfl⟩
    · simp [Stored, h0]
    · simp [Stored]
    · simp [Stored, h0]
    · simp [Stored]
  | @stored live live' he hnone hroom hkey ht =>
    have hmem : (⟨crc key, key, gen, expires, h⟩ : LiveNode) ∈ live'.tree.toList := by
      rw [ht, bal.toList_fix]
      exact (insert_perm liveCmp LiveNode.id _ live.tree).mem_iff.2 List.mem_cons_self
    rw [hfound _ hmem rfl]
    simp [Stored]

/-! ### The clock -/

/-- An expiry seen from a clock in the first half of its range. -/
theorem lasts_iff (ln : LiveNode) {t : ℕ} (ht : t ≤ 2 ^ 63) (hw : ln.expires < 2 ^ 64) :
    ln.lasts t = true ↔ ln.expires = 0 ∨ t ≤ ln.expires ∧ ln.expires < t + 2 ^ 63 := by
  have hsigned : 0 ≤ signed ((ln.expires : ℤ) - t) ↔ t ≤ ln.expires ∧ ln.expires < t + 2 ^ 63 := by
    by_cases hlt : (ln.expires : ℤ) - t < 2 ^ 63
    · rw [signed_eq_self (by omega) hlt]
      omega
    · have hneg : signed ((ln.expires : ℤ) - t) < 0 := by
        have h := signed_neg (n := ln.expires - t) (by omega) (by omega)
        rwa [Nat.cast_sub (by omega)] at h
      omega
  rw [LiveNode.lasts, Bool.or_eq_true, beq_iff_eq, decide_eq_true_eq, hsigned]

/-- A key is a hit as its entry says. -/
theorem liveHit_of_expires {e : ℕ} (hpos : key.length ≠ 0)
    (hfind : (slot.find crc key).map LiveNode.expires = some e) (he : e < 2 ^ 64) {t : ℕ}
    (ht : t ≤ 2 ^ 63) :
    liveHit crc slot key t = true ↔ e = 0 ∨ t ≤ e ∧ e < t + 2 ^ 63 := by
  obtain ⟨ln, hln, rfl⟩ := Option.map_eq_some_iff.1 hfind
  rw [liveHit_iff, hln]
  simp [hpos, lasts_iff ln ht he]

theorem liveHit_congr {slot' : Slot} (h : (slot'.find crc key).map LiveNode.expires =
    (slot.find crc key).map LiveNode.expires) (t : ℕ) :
    liveHit crc slot' key t = liveHit crc slot key t := by
  have hany (s : Slot) : liveHit crc s key t = true ↔
      key.length ≠ 0 ∧ ∃ e, (s.find crc key).map LiveNode.expires = some e ∧
        LiveNode.lasts ⟨0, [], 0, e, 0⟩ t = true := by
    rw [liveHit_iff]
    simp [Option.map_eq_some_iff, LiveNode.lasts]
  rw [Bool.eq_iff_iff, hany, hany, h]

/-! ### Protection -/

/-- What a local ban for `ttl` seconds promises, for the times from now on in the first half of the
clock's range: a hit stays a hit, a ban that is taken lasts to its end, other keys are as before. -/
structure Protects (crc : Bytes → ℕ) (slot slot' : Slot) (rc : Rc) (key : Bytes) (ttl now : ℕ) :
    Prop where
  keeps : ∀ t, now ≤ t → t ≤ 2 ^ 63 → liveHit crc slot key t = true → liveHit crc slot' key t = true
  covers : rc = .ok → ∀ t, now ≤ t → t ≤ now + ttl * 1000 → t ≤ 2 ^ 63 →
    liveHit crc slot' key t = true
  others : ∀ key', key' ≠ key → ∀ t, liveHit crc slot' key' t = liveHit crc slot key' t

/-- A ban that is not taken changes no answer. -/
theorem Protects.of_same {slot' : Slot} {rc : Rc} {ttl now : ℕ} (hrc : rc ≠ .ok)
    (hself : (slot'.find crc key).map LiveNode.expires = (slot.find crc key).map LiveNode.expires)
    (hothers : ∀ key', key' ≠ key → ∀ t, liveHit crc slot' key' t = liveHit crc slot key' t) :
    Protects crc slot slot' rc key ttl now where
  keeps t _ _ h := by rwa [liveHit_congr hself t]
  covers hok := absurd hok hrc
  others := hothers

/-- A stored ban protects when no time from now on sees it end too early. -/
theorem protects_of_taken {slot' : Slot} {ttl now e : ℕ} (hpos : key.length ≠ 0) (he : e < 2 ^ 64)
    (hself : (slot'.find crc key).map LiveNode.expires = some e)
    (hothers : ∀ key', key' ≠ key → ∀ t, liveHit crc slot' key' t = liveHit crc slot key' t)
    (hlonger : ∀ ln, slot.find crc key = some ln → ¬ Shorter e ln)
    (hsum : now + ttl * 1000 < 2 ^ 63 → e = now + ttl * 1000)
    (hcond : now + ttl * 1000 < 2 ^ 63 ∧ (∀ ln, slot.find crc key = some ln → ln.expires ≠ 0) ∨
      e = 0 ∨ 2 ^ 63 ≤ e ∧ e < now + 2 ^ 63) :
    Protects crc slot slot' .ok key ttl now where
  keeps t hnow ht hit := by
    rw [liveHit_of_expires hpos hself he ht]
    rcases hcond with ⟨hend, hperm⟩ | h0 | hlate
    · obtain ⟨-, ln, hln, hlasts⟩ := (liveHit_iff slot key t).1 hit
      have hne := hperm ln hln
      have hlong : e = 0 ∨ ln.expires < e := by
        have hs := hlonger ln hln
        unfold Shorter at hs
        omega
      have hold := hsum hend
      rcases hlong with h0 | hlt
      · exact .inl h0
      · have hl := (lasts_iff ln ht (Nat.lt_trans hlt he)).1 hlasts
        omega
    · exact .inl h0
    · omega
  covers _ t hnow hend ht := by
    rw [liveHit_of_expires hpos hself he ht]
    rcases hcond with ⟨hclock, -⟩ | h0 | hlate
    · have hold := hsum hclock
      omega
    · exact .inl h0
    · omega
  others := hothers

/-- A stored ban that protects meets the condition. -/
theorem Protects.of_taken {slot' : Slot} {ttl now e : ℕ} (hpos : key.length ≠ 0) (he : e < 2 ^ 64)
    (hnow : now ≤ 2 ^ 63) (hself : (slot'.find crc key).map LiveNode.expires = some e)
    (hp : Protects crc slot slot' .ok key ttl now) :
    now + ttl * 1000 < 2 ^ 63 ∧ (∀ ln, slot.find crc key = some ln → ln.expires ≠ 0) ∨
      e = 0 ∨ 2 ^ 63 ≤ e ∧ e < now + 2 ^ 63 := by
  by_cases h0 : e = 0
  · exact .inr (.inl h0)
  by_cases hlate : 2 ^ 63 ≤ e ∧ e < now + 2 ^ 63
  · exact .inr (.inr hlate)
  have hat : now ≤ e ∧ e < now + 2 ^ 63 := by
    have hhit := hp.covers rfl now le_rfl (Nat.le_add_right _ _) hnow
    rw [liveHit_of_expires hpos hself he hnow] at hhit
    omega
  -- The last time of the range is past the ban, which is neither 0 nor beyond the range.
  have hlast : liveHit crc slot' key (2 ^ 63) ≠ true := by
    rw [Ne, liveHit_of_expires hpos hself he le_rfl]
    omega
  have hend : now + ttl * 1000 < 2 ^ 63 := by
    by_contra hge
    exact hlast (hp.covers rfl (2 ^ 63) hnow (by omega) le_rfl)
  refine .inl ⟨hend, fun ln hln hperm => hlast (hp.keeps (2 ^ 63) hnow le_rfl ?_)⟩
  rw [liveHit_iff]
  exact ⟨hpos, ln, hln, by simp [LiveNode.lasts, hperm]⟩

end

/-- **When a local ban protects.**  A ban that the overlay takes keeps every hit and lasts to its end
exactly when the clock can still see its end and the key has no entry that never expires, or when
the word of its end wraps to one the clock reads as later than all its times. -/
theorem local_ban_protects_iff {crc : Bytes → ℕ} {bal : Balance LiveNode.id}
    {inetAddr : Bytes → Fixed 4} {inet6Addr : Bytes → Option (Fixed 16)} {md5Hex : Bytes → Bytes}
    {ds : DatasetConf} {slot : Slot} {value key : Bytes} {binary : Bool} {ttl now : ℕ}
    {room : Bool × Bool} (hx : Exact crc slot) (hvalue : value.length ≠ 0) (httl : 0 < ttl)
    (hkey : banKey inetAddr inet6Addr md5Hex ds value binary = some key) (hnow : now ≤ 2 ^ 63) :
    Protects crc slot
        (datasetPut crc bal inetAddr inet6Addr md5Hex ds slot value binary ttl now room).2
        (datasetPut crc bal inetAddr inet6Addr md5Hex ds slot value binary ttl now room).1 key ttl now ↔
      ¬ slot.Takes crc key (banEnd now ttl) room ∨
        now + ttl * 1000 < 2 ^ 63 ∧ (∀ ln, slot.find crc key = some ln → ln.expires ≠ 0) ∨
        banEnd now ttl = 0 ∨ 2 ^ 63 ≤ banEnd now ttl ∧ banEnd now ttl < now + 2 ^ 63 := by
  unfold datasetPut
  rw [if_neg (by omega), hkey]
  simp only
  have hself : ((livePut crc bal slot key (banEnd now ttl) 0 (liveGen slot) room).2.find crc key).map
      LiveNode.expires = _ := find_livePut_self hx
  have hothers : ∀ key', key' ≠ key → ∀ t,
      liveHit crc (livePut crc bal slot key (banEnd now ttl) 0 (liveGen slot) room).2 key' t =
        liveHit crc slot key' t := by
    intro key' hne t
    refine liveHit_congr ?_ t
    rw [find_livePut_other hx hne]
  have hok : (livePut crc bal slot key (banEnd now ttl) 0 (liveGen slot) room).1 = .ok ↔ _ :=
    livePut_ok_iff hx
  have hword : banEnd now ttl < 2 ^ 64 := Nat.mod_lt _ (by norm_num)
  generalize livePut crc bal slot key (banEnd now ttl) 0 (liveGen slot) room = r at hself hothers hok ⊢
  by_cases htakes : slot.Takes crc key (banEnd now ttl) room
  · have hrc := hok.2 htakes
    rw [if_pos (.inl hrc)] at hself
    simp only [hrc, htakes, not_true_eq_false, false_or, ne_eq, if_false, reduceCtorEq]
    constructor
    · exact fun hp => hp.of_taken htakes.1 hword hnow hself
    · refine protects_of_taken htakes.1 hword hself hothers ?_ ?_
      · intro ln hln
        have hmatch := htakes.2.2.2
        rwa [hln] at hmatch
      · intro hend
        exact Nat.mod_eq_of_lt (by omega)
  · have hrc : r.1 ≠ .ok := fun h => htakes (hok.1 h)
    rw [if_neg fun hs => hs.elim hrc fun hd => hd.2 rfl] at hself
    refine iff_of_true (Protects.of_same ?_ hself hothers) (.inl htakes)
    split
    · simp
    · simp

/-- A dataset of strings with one entry of the keeper, for ever. -/
def permanentSlot : Slot :=
  (livePut Rate.crc32 (Balance.plain LiveNode.id)
    ⟨.string, none, 0, 7, 1, List.replicate 16 0, 0, false, false⟩ [1] 0 5 1 (true, true)).2

/-- A ban of a minute over the keeper's entry: the key is a hit a day later before it, not after it. -/
theorem local_ban_shortens :
    let slot := (datasetPut Rate.crc32 (Balance.plain LiveNode.id) (fun _ => inaddrNone)
      (fun _ => none) id ⟨.string, false⟩ permanentSlot [1] false 60 1000 (true, true)).2
    (datasetPut Rate.crc32 (Balance.plain LiveNode.id) (fun _ => inaddrNone) (fun _ => none) id
      ⟨.string, false⟩ permanentSlot [1] false 60 1000 (true, true)).1 = .ok ∧
    liveHit Rate.crc32 permanentSlot [1] 86401000 = true ∧
      liveHit Rate.crc32 slot [1] 86401000 = false := by
  decide +kernel

/-- A longer ban over an entry that ends. -/
theorem local_ban_protects_longer :
    let slot := (livePut Rate.crc32 (Balance.plain LiveNode.id)
      ⟨.string, none, 0, 7, 1, List.replicate 16 0, 0, false, false⟩ [1] 5000 5 1 (true, true)).2
    Protects Rate.crc32 slot
      (datasetPut Rate.crc32 (Balance.plain LiveNode.id) (fun _ => inaddrNone) (fun _ => none) id
        ⟨.string, false⟩ slot [1] false 60 1000 (true, true)).2
      (datasetPut Rate.crc32 (Balance.plain LiveNode.id) (fun _ => inaddrNone) (fun _ => none) id
        ⟨.string, false⟩ slot [1] false 60 1000 (true, true)).1 [1] 60 1000 := by
  intro slot
  have h0 : Exact Rate.crc32 ⟨.string, none, 0, 7, 1, List.replicate 16 0, 0, false, false⟩ := rfl
  refine (local_ban_protects_iff (exact_livePut h0 [1] 5000 5 1 (true, true)) (by decide) (by decide)
    rfl (by decide)).2 (.inr (.inl ⟨by decide, fun ln hln => ?_⟩))
  have hfind : slot.find Rate.crc32 [1] = some ⟨Rate.crc32 [1], [1], 1, 5000, 5⟩ := by decide +kernel
  rw [hfind] at hln
  cases hln
  decide

end Dataset
