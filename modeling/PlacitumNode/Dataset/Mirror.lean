import PlacitumNode.Dataset.Expiry

/-!
# The mirror of a keeper's dataset

A keeper has a dataset, and its entries change from one sequence number to the next.  A node gets
snapshots of them and the packages that lead from one number to the next; they come twice, too late,
out of order or not at all.

* `Entries`, `Entries.apply`, `Entries.load`: what the keeper has, and what records make of it;
* `find_put`, `find_drop`, `find_mark`, `find_sweepAll`: what the operations of the overlay do to it,
  as a map from keys to nodes;
* `records_spec`: a pass over records is the same pass over maps;
* `Mirrored`: the overlay is what a keeper has, but for local bans;
* `snapshot_replaces`: after a snapshot the overlay has what the snapshot has;
* `mirror_follows`: the overlay is always what the keeper had at the place that the slot names;
* `mirror_answers`: a lookup on the node is one in the keeper's entries.
-/

namespace Dataset

open Octets Machine SearchTree Run

/-! ### The entries of a keeper -/

/-- A key that the overlay takes. -/
def ValidKey (type : DsType) (key : Bytes) : Prop :=
  key.length ≠ 0 ∧ key.length ≤ entryMax ∧ liveBits type key ≠ .error

instance (type : DsType) (key : Bytes) : Decidable (ValidKey type key) :=
  inferInstanceAs (Decidable (_ ∧ _ ∧ _))

/-- The entries of a dataset, with the ends the keeper gave them. -/
abbrev Entries := Bytes → Option ℤ

/-- A record of a package: 1 adds, 2 removes. -/
def Entries.apply (type : DsType) (m : Entries) (r : Record) : Entries :=
  if r.op = 2 then Function.update m r.key none
  else if r.op = 1 ∧ ValidKey type r.key then Function.update m r.key (some r.exp)
  else m

/-- The records of a snapshot; it only adds. -/
def Entries.load (type : DsType) (rs : List Record) : Entries :=
  (rs.filter fun r => r.op = 1).foldl (Entries.apply type) fun _ => none

/-! ### Operations on the overlay as a map -/

section

variable {crc : Bytes → ℕ} {bal : Balance LiveNode.id} {slot : Slot} {key : Bytes} {gen expires : ℕ}
  {h : UInt64} {room : Bool × Bool}

theorem find_ext {s t : Slot} (hs : Exact crc s) (ht : Exact crc t) (k : Bytes)
    (hmem : ∀ ln : LiveNode, ln.data = k → (ln ∈ s.nodes ↔ ln ∈ t.nodes)) :
    s.find crc k = t.find crc k := by
  refine Option.ext fun ln => ?_
  rw [find_eq_some hs, find_eq_some ht]
  exact and_congr_left fun hdata => hmem ln hdata

theorem Exact.keyed (hx : Exact crc slot) {ln : LiveNode} (hln : ln ∈ slot.nodes) :
    Keyed crc slot.type ln := by
  cases hl : slot.live with
  | none =>
    rw [Slot.nodes, hl] at hln
    exact absurd hln List.not_mem_nil
  | some live =>
    rw [Slot.nodes_of hl] at hln
    exact (hx.books hl).keyed ln hln

/-- Only keys that the overlay takes are found. -/
theorem Exact.valid (hx : Exact crc slot) {ln : LiveNode} (hfind : slot.find crc key = some ln) :
    ValidKey slot.type key ∧ ln.hash = crc key ∧ ln.data = key := by
  obtain ⟨hmem, rfl⟩ := (find_eq_some hx).1 hfind
  have hk := hx.keyed hmem
  exact ⟨⟨hk.pos, hk.short, hk.valid⟩, hk.hash_eq, rfl⟩

/-- A key that the overlay does not take changes nothing. -/
theorem put_invalid (hkey : ¬ ValidKey slot.type key) :
    (livePut crc bal slot key expires h gen room).2 = slot := by
  unfold livePut
  by_cases hlen : key.length = 0 ∨ key.length > entryMax
  · rw [if_pos hlen]
  · rw [if_neg hlen]
    obtain ⟨hpos, hshort⟩ := not_or.1 hlen
    have hbits : liveBits slot.type key = .error := by
      by_contra hbits
      exact hkey ⟨hpos, Nat.le_of_not_gt hshort, hbits⟩
    simp only [hbits, if_true]

/-- A put of the keeper is stored when there is room for one more. -/
theorem put_stored (hx : Exact crc slot) (hkey : ValidKey slot.type key) (hh : h ≠ 0)
    (hfits : slot.find crc key = none → slot.nodes.length < slot.liveLimit) :
    Stored h (livePut crc bal slot key expires h gen (true, true)).1 := by
  obtain ⟨hpos, hshort, hbits⟩ := hkey
  unfold livePut
  rw [if_neg (not_or.2 ⟨hpos, Nat.not_lt.2 hshort⟩)]
  simp only [if_neg hbits]
  cases he : liveEnsure true slot with
  | none =>
    unfold liveEnsure at he
    cases hl : slot.live with
    | none => simp [hl] at he
    | some live => simp [hl] at he
  | some live =>
    have hfind := find_ensure hx he key
    obtain ⟨hmax, -⟩ := liveEnsure_max he
    have hn : live.n = slot.nodes.length := by
      rw [(hx.ensure he).n_eq, nodes_ensure he]
    simp only
    cases hlook : liveLookup crc live key with
    | some ln =>
      simp only [if_pos hh]
      by_cases hexp : ln.expires = expires
      · rw [if_pos hexp]
        exact .inr ⟨rfl, hh⟩
      · rw [if_neg hexp]
        exact .inl rfl
    | none =>
      have hlt := hfits (hfind.symm.trans hlook)
      have hroom : ¬ live.n ≥ live.max := by
        rw [hn, hmax]
        exact Nat.not_le.2 hlt
      simp only [if_neg hroom, Bool.true_eq_false, if_false]
      exact .inl rfl

/-- The key of a put: what stood there when it is refused, and otherwise a node of this generation,
with the put's hash when it is the keeper's and with its end when it is stored. -/
theorem find_livePut (hx : Exact crc slot) :
    ((livePut crc bal slot key expires h gen room).2.find crc key = slot.find crc key ∧
        ¬ Stored h (livePut crc bal slot key expires h gen room).1) ∨
      ∃ e, (livePut crc bal slot key expires h gen room).2.find crc key =
          some ⟨crc key, key, gen, e,
            if h = 0 then ((slot.find crc key).map LiveNode.h).getD 0 else h⟩ ∧
        (Stored h (livePut crc bal slot key expires h gen room).1 → e = expires) := by
  have hx' : Exact crc (livePut crc bal slot key expires h gen room).2 :=
    exact_livePut hx key expires h gen room
  have hput := put_livePut crc bal slot key expires h gen room
  generalize (livePut crc bal slot key expires h gen room).1 = rc at hput ⊢
  generalize (livePut crc bal slot key expires h gen room).2 = slot' at hput hx' ⊢
  have hfound : ∀ e x, (⟨crc key, key, gen, e, x⟩ : LiveNode) ∈ slot'.nodes →
      slot'.find crc key = some ⟨crc key, key, gen, e, x⟩ := fun e x hmem =>
    (find_eq_some hx').2 ⟨hmem, rfl⟩
  cases hput with
  | refused => exact Or.inl ⟨rfl, by simp [Stored]⟩
  | unstored he hnone hrc =>
    refine Or.inl ⟨find_ensure hx he key, ?_⟩
    rcases hrc with rfl | rfl <;> simp [Stored]
  | @renewed live ln f rc left he hsome hid hf hleft =>
    have hb := hx.ensure he
    obtain ⟨hmem, hdata⟩ := liveLookup_some hb hsome
    have hold : slot.find crc key = some ln := (find_ensure hx he key).symm.trans hsome
    have hmem' : f ln ∈ (live.tree.modify LiveNode.id ln.id f).toList :=
      (modify_perm hb.ordered hmem).mem_iff.2 List.mem_cons_self
    have hnode : f ln = ⟨crc key, key, gen, left, if h = 0 then ln.h else h⟩ := by
      rw [hf, ← hdata, ← (hb.keyed ln hmem).hash_eq]
    rw [hnode] at hmem'
    rw [hold]
    refine Or.inr ⟨left, hfound left _ hmem', fun hstored => ?_⟩
    rcases hleft with ⟨-, hleft, -⟩ | ⟨h0, -, -, rfl⟩ | ⟨-, -, hleft, -⟩
    · exact hleft
    · simp [Stored, h0] at hstored
    · exact hleft
  | @stored live live' he hnone hroom hkey ht =>
    have hold : slot.find crc key = none := (find_ensure hx he key).symm.trans hnone
    have hmem : (⟨crc key, key, gen, expires, h⟩ : LiveNode) ∈ live'.tree.toList := by
      rw [ht, bal.toList_fix]
      exact (insert_perm liveCmp LiveNode.id _ live.tree).mem_iff.2 List.mem_cons_self
    have hh : (if h = 0 then ((none : Option LiveNode).map LiveNode.h).getD 0 else h) = h := by
      split_ifs with h0
      · exact h0.symm
      · rfl
    rw [hold, hh]
    exact Or.inr ⟨expires, hfound expires h hmem, fun _ => rfl⟩

/-- **A put of the keeper.**  With room for one more, the key has the new node. -/
theorem find_put (hx : Exact crc slot) (hkey : ValidKey slot.type key) (hh : h ≠ 0)
    (hfits : slot.find crc key = none → slot.nodes.length < slot.liveLimit) :
    (livePut crc bal slot key expires h gen (true, true)).2.find crc key =
      some ⟨crc key, key, gen, expires, h⟩ := by
  have hstored : Stored h (livePut crc bal slot key expires h gen (true, true)).1 :=
    put_stored hx hkey hh hfits
  rcases find_livePut hx with ⟨-, hnot⟩ | ⟨e, hfind, he⟩
  · exact absurd hstored hnot
  · rw [hfind, he hstored, if_neg hh]

/-- An empty key is never found. -/
theorem find_nil (hx : Exact crc slot) : slot.find crc [] = none := by
  cases hfind : slot.find crc [] with
  | none => rfl
  | some ln => exact absurd rfl (hx.valid hfind).1.1

/-- **A removal.** -/
theorem find_drop (hx : Exact crc slot) (k : Bytes) :
    (liveDrop crc bal slot key).2.find crc k = if k = key then none else slot.find crc k := by
  have hgone : slot.find crc key = none →
      slot.find crc k = if k = key then none else slot.find crc k := by
    intro hnone
    by_cases hk : k = key
    · rw [if_pos hk, hk, hnone]
    · rw [if_neg hk]
  unfold liveDrop
  cases hl : slot.live with
  | none => exact hgone (by rw [Slot.find, hl]; rfl)
  | some live =>
    simp only
    by_cases hlen : key.length = 0
    · rw [if_pos hlen]
      obtain rfl := List.length_eq_zero_iff.1 hlen
      exact hgone (find_nil hx)
    · rw [if_neg hlen]
      cases hfind : liveLookup crc live key with
      | none => exact hgone (by rw [Slot.find, hl, Option.bind_some, hfind])
      | some ln =>
        have hb := hx.books hl
        obtain ⟨hmem, hdata⟩ := liveLookup_some hb hfind
        have hx' : Exact crc (liveDelete bal slot live ln) := exact_liveDelete hx hl hmem
        obtain ⟨live', hlive', ht, -, -⟩ := liveDelete_live bal slot live ln
        have hnodes : ∀ a, a ∈ (liveDelete bal slot live ln).nodes ↔
            a ∈ slot.nodes ∧ a.id ≠ ln.id := by
          intro a
          rw [Slot.nodes_of hlive', ht, bal.toList_delete, List.mem_filter, Slot.nodes_of hl,
            decide_eq_true_iff]
        by_cases hk : k = key
        · rw [if_pos hk, hk]
          cases hleft : (liveDelete bal slot live ln).find crc key with
          | none => rfl
          | some a =>
            obtain ⟨ha, hadata⟩ := (find_eq_some hx').1 hleft
            obtain ⟨haold, hid⟩ := (hnodes a).1 ha
            refine absurd ?_ hid
            rw [LiveNode.id, LiveNode.id, (hx.keyed haold).hash_eq, (hb.keyed ln hmem).hash_eq,
              hadata, hdata]
        · rw [if_neg hk]
          refine find_ext hx' hx k fun a ha => ?_
          rw [hnodes]
          refine and_iff_left fun hid => hk ?_
          rw [← ha, ← hdata]
          exact congrArg Prod.snd hid

/-- **A mark.** -/
theorem find_mark (hx : Exact crc slot) (k : Bytes) :
    (liveMark crc slot key gen).find crc k =
      (slot.find crc k).map fun ln => if k = key then { ln with gen := gen } else ln := by
  have hgone : slot.find crc key = none → slot.find crc k =
      (slot.find crc k).map fun ln => if k = key then { ln with gen := gen } else ln := by
    intro hnone
    by_cases hk : k = key
    · rw [hk, hnone]
      rfl
    · simp only [if_neg hk, Option.map_id']
  unfold liveMark
  cases hl : slot.live with
  | none => exact hgone (by rw [Slot.find, hl]; rfl)
  | some live =>
    simp only
    by_cases hlen : key.length = 0
    · rw [if_pos hlen]
      obtain rfl := List.length_eq_zero_iff.1 hlen
      exact hgone (find_nil hx)
    · rw [if_neg hlen]
      cases hfind : liveLookup crc live key with
      | none => exact hgone (by rw [Slot.find, hl, Option.bind_some, hfind])
      | some ln =>
        have hb := hx.books hl
        obtain ⟨hmem, hdata⟩ := liveLookup_some hb hfind
        have hx' := exact_liveMark hx key gen
        unfold liveMark at hx'
        simp only [hl, if_neg hlen, hfind] at hx' ⊢
        have hnodes := modify_perm (f := fun a : LiveNode => { a with gen := gen }) hb.ordered hmem
        by_cases hk : k = key
        · have hold : slot.find crc key = some ln := by rw [Slot.find, hl, Option.bind_some, hfind]
          rw [hk, hold, Option.map_some, if_pos rfl]
          exact (find_eq_some hx').2 ⟨hnodes.mem_iff.2 List.mem_cons_self, hdata⟩
        · simp only [if_neg hk, Option.map_id']
          refine find_ext hx' hx k fun a ha => ?_
          rw [Slot.nodes_of rfl, hnodes.mem_iff, List.mem_cons, List.mem_filter, Slot.nodes_of hl]
          constructor
          · rintro (rfl | ⟨hmem', -⟩)
            · exact absurd (ha.symm.trans hdata) hk
            · exact hmem'
          · intro hmem'
            refine .inr ⟨hmem', decide_eq_true fun hid => hk ?_⟩
            rw [← ha, ← hdata]
            exact congrArg Prod.snd hid

/-- **The sweeps.**  Exactly the nodes of this generation stay. -/
theorem nodes_sweepLoop_eq (hx : Exact crc slot) {cursor : Option (ℕ × Bytes)}
    {behind ahead : List LiveNode} (hnodes : slot.nodes = behind ++ ahead)
    (hcursor : cursor = ahead.head?.map LiveNode.id) (n swept : ℕ) :
    (sweepLoop bal gen n cursor swept slot).2.2.nodes =
      behind ++ (ahead.take n).filter (fun a => a.gen = gen) ++ ahead.drop n := by
  induction n generalizing slot cursor behind ahead swept with
  | zero =>
    rw [List.take_zero, List.filter_nil, List.append_nil, List.drop_zero]
    exact hnodes
  | succ n ih =>
    cases ahead with
    | nil =>
      rw [hcursor]
      simpa [sweepLoop] using hnodes
    | cons ln ahead =>
      have hnd := hx.nodes_nodup
      rw [hcursor]
      simp only [List.head?_cons, Option.map_some, sweepLoop]
      cases hl : slot.live with
      | none => simp [Slot.nodes, hl] at hnodes
      | some live =>
        have htree := Slot.nodes_of hl
        have hmem : ln ∈ live.tree.toList := by
          rw [← htree, hnodes]
          simp
        have hb := hx.books hl
        have hnext : (live.tree.next LiveNode.id ln.id).map LiveNode.id =
            ahead.head?.map LiveNode.id := by
          rw [hnodes] at hnd
          rw [Bst.next, ← htree, hnodes, dropWhile_behind hnd, List.tail_cons]
        simp only [search_of_mem hb.ordered hmem, hnext]
        by_cases hgen : ln.gen = gen
        · have hnodes' : slot.nodes = (behind ++ [ln]) ++ ahead := by simpa using hnodes
          rw [if_neg (not_not.2 hgen), ih hx hnodes' rfl]
          simp [hgen]
        · obtain ⟨live', hlive', ht, -, -⟩ := liveDelete_live bal slot live ln
          have hleft : (liveDelete bal slot live ln).nodes = behind ++ ahead := by
            rw [hnodes] at hnd
            rw [Slot.nodes_of hlive', ht, bal.toList_delete, ← htree, hnodes]
            exact filter_behind hnd
          rw [if_pos hgen, ih (exact_liveDelete hx hl hmem) hleft rfl]
          simp [hgen]

/-- One batch of the sweep. -/
theorem nodes_liveSweep (bal : Balance LiveNode.id) (gen : ℕ) (hx : Exact crc slot)
    {cursor : Option (ℕ × Bytes)} {ln : LiveNode}
    {behind ahead : List LiveNode} (hnodes : slot.nodes = behind ++ ln :: ahead)
    (hcursor : cursor = some ln.id ∨ (cursor = none ∧ behind = [])) (n : ℕ) :
    (liveSweep bal slot gen n cursor).2.2.2.nodes =
        behind ++ ((ln :: ahead).take n).filter (fun a => a.gen = gen) ++ (ln :: ahead).drop n ∧
      (liveSweep bal slot gen n cursor).2.1 = ((ln :: ahead).drop n).head?.map LiveNode.id ∧
      (liveSweep bal slot gen n cursor).1 = ((ln :: ahead).drop n).head?.isSome := by
  unfold liveSweep
  cases hl : slot.live with
  | none => simp [Slot.nodes, hl] at hnodes
  | some live =>
    have htree := Slot.nodes_of hl
    cases hfirst : live.tree.first with
    | none =>
      rw [htree] at hnodes
      rw [List.head?_eq_none_iff.1 hfirst] at hnodes
      simp at hnodes
    | some a =>
      have hor : cursor.or (some a.id) = some ln.id := by
        rcases hcursor with rfl | ⟨rfl, rfl⟩
        · rfl
        · rw [Bst.first, ← htree, hnodes] at hfirst
          cases hfirst
          rfl
      have hat : AtCursor slot (some ln.id) (ln :: ahead) := ⟨behind, hnodes, rfl⟩
      obtain ⟨-, -, hcur⟩ := atCursor_sweepLoop bal gen hx hat n 0
      simp only [hfirst, hor]
      refine ⟨nodes_sweepLoop_eq hx hnodes rfl n 0, hcur, ?_⟩
      rw [hcur, Option.isSome_map]

theorem nodes_sweepFrom (hx : Exact crc slot) {fuel : ℕ} {cursor : Option (ℕ × Bytes)}
    {ln : LiveNode} {behind ahead : List LiveNode} {t : Slot}
    (hnodes : slot.nodes = behind ++ ln :: ahead) (hbehind : ∀ a ∈ behind, a.gen = gen)
    (hcursor : cursor = some ln.id ∨ (cursor = none ∧ behind = []))
    (ht : sweepAll bal gen fuel cursor slot = some t) :
    Exact crc t ∧ t.nodes = behind ++ (ln :: ahead).filter fun a => a.gen = gen := by
  -- `behind` is what the batches so far have left; the cursor is at the node after it.
  induction fuel generalizing slot cursor ln behind ahead with
  | zero => cases ht
  | succ fuel ih =>
    obtain ⟨hleft, hcur, hmore⟩ := nodes_liveSweep bal gen hx hnodes hcursor 1024
    have hx' : Exact crc (liveSweep bal slot gen 1024 cursor).2.2.2 :=
      exact_liveSweep gen 1024 cursor hx
    simp only [sweepAll] at ht
    generalize liveSweep bal slot gen 1024 cursor = r at hleft hcur hmore hx' ht
    obtain ⟨more, node, swept, u⟩ := r
    have hsplit : (ln :: ahead).filter (fun a => a.gen = gen) =
        ((ln :: ahead).take 1024).filter (fun a => a.gen = gen) ++
          ((ln :: ahead).drop 1024).filter fun a => a.gen = gen := by
      rw [← List.filter_append, List.take_append_drop]
    cases hrest : (ln :: ahead).drop 1024 with
    | nil =>
      rw [hrest] at hmore hleft hsplit
      cases hmore
      cases ht
      refine ⟨hx', ?_⟩
      rw [hsplit]
      simpa using hleft
    | cons b rest =>
      rw [hrest] at hmore hleft hcur hsplit
      cases hmore
      have hbehind' : ∀ a ∈ behind ++ ((ln :: ahead).take 1024).filter (fun a => a.gen = gen),
          a.gen = gen := by
        intro a ha
        rcases List.mem_append.1 ha with ha | ha
        · exact hbehind a ha
        · exact of_decide_eq_true (List.mem_filter.1 ha).2
      obtain ⟨hxt, hnt⟩ := ih hx' hleft hbehind' (.inl hcur) ht
      refine ⟨hxt, ?_⟩
      rw [hnt, hsplit, List.append_assoc]

/-- **The sweeps of a snapshot.**  Exactly the nodes of its generation stay. -/
theorem find_sweepAll (hx : Exact crc slot) {fuel : ℕ} {t : Slot}
    (ht : sweepAll bal gen fuel none slot = some t) :
    Exact crc t ∧ ∀ k, t.find crc k = (slot.find crc k).filter fun ln => ln.gen = gen := by
  have hall : Exact crc t ∧ t.nodes = slot.nodes.filter fun a => a.gen = gen := by
    cases hnodes : slot.nodes with
    | nil =>
      cases fuel with
      | zero => cases ht
      | succ fuel =>
        have hsweep : liveSweep bal slot gen 1024 none = (false, none, 0, slot) := by
          unfold liveSweep
          cases hl : slot.live with
          | none => rfl
          | some live =>
            rw [Slot.nodes_of hl] at hnodes
            simp [Bst.first, hnodes]
        simp only [sweepAll, hsweep] at ht
        cases ht
        exact ⟨hx, hnodes⟩
    | cons ln ahead =>
      have hnodes' : slot.nodes = [] ++ ln :: ahead := hnodes
      exact nodes_sweepFrom hx hnodes' (fun a ha => absurd ha List.not_mem_nil)
        (.inr ⟨rfl, rfl⟩) ht
  obtain ⟨hxt, hnodes⟩ := hall
  refine ⟨hxt, fun k => Option.ext fun ln => ?_⟩
  rw [find_eq_some hxt, hnodes, List.mem_filter, Option.filter_eq_some_iff, find_eq_some hx]
  exact and_right_comm

/-! ### Generations -/

theorem gen_ensure {ensured : Bool} {live : Live} (he : liveEnsure ensured slot = some live) :
    live.gen = liveGen slot := by
  unfold liveEnsure at he
  unfold liveGen
  cases hl : slot.live with
  | some old =>
    rw [hl] at he
    cases he
    rfl
  | none =>
    rw [hl] at he
    cases ensured with
    | true =>
      cases he
      rfl
    | false => cases he

theorem gen_put (slot : Slot) (key : Bytes) (expires : ℕ) (h : UInt64) (gen : ℕ)
    (room : Bool × Bool) :
    liveGen (livePut crc bal slot key expires h gen room).2 = liveGen slot := by
  unfold livePut
  split
  · rfl
  · dsimp only
    split
    · rfl
    · cases he : liveEnsure room.1 slot with
      | none => rfl
      | some live =>
        have hgen := gen_ensure he
        dsimp only
        cases liveLookup crc live key with
        | some ln =>
          dsimp only
          split_ifs <;> exact hgen
        | none =>
          dsimp only
          split_ifs
          · exact hgen
          · exact hgen
          · cases liveBits slot.type key <;> exact hgen

theorem gen_delete {live : Live} (hl : slot.live = some live) (ln : LiveNode) :
    liveGen (liveDelete bal slot live ln) = liveGen slot := by
  have hgen : liveGen slot = live.gen := by
    rw [liveGen, hl]
    rfl
  rw [hgen, liveDelete]
  cases liveBits slot.type ln.data with
  | ok fam bits =>
    dsimp only
    split_ifs <;> rfl
  | declined => rfl
  | error => rfl

theorem gen_drop (slot : Slot) (key : Bytes) :
    liveGen (liveDrop crc bal slot key).2 = liveGen slot := by
  unfold liveDrop
  cases hl : slot.live with
  | none => rfl
  | some live =>
    dsimp only
    split_ifs
    · rfl
    · cases liveLookup crc live key with
      | none => rfl
      | some ln => exact gen_delete hl ln

theorem gen_mark (slot : Slot) (key : Bytes) (gen : ℕ) :
    liveGen (liveMark crc slot key gen) = liveGen slot := by
  unfold liveMark
  cases hl : slot.live with
  | none => rfl
  | some live =>
    dsimp only
    split_ifs
    · rfl
    · cases liveLookup crc live key with
      | none => rfl
      | some ln =>
        rw [liveGen, liveGen, hl]
        rfl

theorem gen_sweepLoop (gen n : ℕ) (node : Option (ℕ × Bytes)) (swept : ℕ) :
    liveGen (sweepLoop bal gen n node swept slot).2.2 = liveGen slot := by
  induction n generalizing slot node swept with
  | zero => rfl
  | succ n ih =>
    cases node with
    | none => rfl
    | some node =>
      simp only [sweepLoop]
      cases hl : slot.live with
      | none => rfl
      | some live =>
        dsimp only
        cases live.tree.search liveCmp LiveNode.id node with
        | none => rfl
        | some ln =>
          dsimp only
          split
          · exact (ih _ _).trans (gen_delete hl ln)
          · exact ih _ _

theorem gen_sweepAll {fuel : ℕ} {cursor : Option (ℕ × Bytes)} {t : Slot}
    (ht : sweepAll bal gen fuel cursor slot = some t) : liveGen t = liveGen slot := by
  induction fuel generalizing slot cursor with
  | zero => cases ht
  | succ fuel ih =>
    have hone : liveGen (liveSweep bal slot gen 1024 cursor).2.2.2 = liveGen slot := by
      unfold liveSweep
      cases slot.live with
      | none => rfl
      | some live =>
        dsimp only
        cases live.tree.first with
        | none => rfl
        | some ln => exact gen_sweepLoop gen 1024 _ 0
    simp only [sweepAll] at ht
    generalize liveSweep bal slot gen 1024 cursor = r at hone ht
    obtain ⟨more, node, swept, u⟩ := r
    cases more with
    | true => exact (ih ht).trans hone
    | false =>
      cases ht
      exact hone

/-- A snapshot has a generation of its own. -/
theorem gen_begin {ensured : Bool} {t : Slot} (hb : liveBegin slot ensured = some (gen, t)) :
    liveGen t = gen ∧ gen ≠ liveGen slot ∧ t.nodes = slot.nodes := by
  unfold liveBegin at hb
  cases he : liveEnsure ensured slot with
  | none =>
    rw [he] at hb
    cases hb
  | some live =>
    rw [he] at hb
    cases hb
    refine ⟨rfl, ?_, ?_⟩
    · rw [← gen_ensure he]
      split_ifs <;> omega
    · rw [Slot.nodes_of rfl, nodes_ensure he]

end

/-! ### Passes as folds -/

section

variable {type flags : UInt8} {f : ℕ → Slot → Record → Slot} {g : Slot → Record → Slot}
  {rs : List Record}

theorem batch_fold (hf : ∀ i s r, f i s r = g s r) (k : ℕ) (s : Pass)
    (hp : Parses type flags s.rest rs) :
    (batch type flags f k s).1 = decide (k ≤ rs.length) ∧
      Parses type flags (batch type flags f k s).2.rest (rs.drop k) ∧
      (batch type flags f k s).2.slot = (rs.take k).foldl g s.slot := by
  induction k generalizing s rs with
  | zero => exact ⟨rfl, hp, rfl⟩
  | succ k ih =>
    simp only [batch]
    cases hp with
    | done hn =>
      rw [hn]
      exact ⟨rfl, .done hn, rfl⟩
    | @ok _ rest r rs hn hrest =>
      rw [hn]
      obtain ⟨hmore, hleft, hslot⟩ := ih ⟨f s.seen.length s.slot r, rest, s.seen ++ [r]⟩ hrest
      refine ⟨by simp [hmore], by simpa using hleft, ?_⟩
      rw [hslot, List.take_succ_cons, List.foldl_cons, hf]

theorem batches_fold (hf : ∀ i s r, f i s r = g s r) {fuel : ℕ} (s : Pass)
    (hp : Parses type flags s.rest rs) {t : Pass} (ht : batches type flags f fuel s = some t) :
    t.slot = rs.foldl g s.slot := by
  induction fuel generalizing s rs with
  | zero => cases ht
  | succ fuel ih =>
    obtain ⟨hmore, hleft, hslot⟩ := batch_fold hf 1024 s hp
    simp only [batches] at ht
    generalize batch type flags f 1024 s = r at hmore hleft hslot ht
    obtain ⟨more, u⟩ := r
    by_cases hlen : 1024 ≤ rs.length
    · rw [decide_eq_true hlen] at hmore
      cases hmore
      rw [ih u hleft ht, hslot, ← List.foldl_append, List.take_append_drop]
    · rw [decide_eq_false hlen] at hmore
      cases hmore
      cases ht
      rw [hslot, List.take_of_length_le (by omega)]

end

/-! ### Records on the overlay and on maps -/

section

variable (crc : Bytes → ℕ) (bal : Balance LiveNode.id) (siphash : Bytes → Bytes → UInt64) (w : World)
  (secret : Bytes) (gen : ℕ)

/-- A record on the overlay, when the slab does not fail. -/
def applyRecord (slot : Slot) (r : Record) : Slot :=
  if r.op = 2 then (liveDrop crc bal slot r.key).2
  else if r.op ≠ 1 then slot
  else (livePut crc bal slot r.key (dsExpires w r.exp) (siphash secret r.key) gen (true, true)).2

/-- The node that an added entry gets. -/
def nodeOf (r : Record) : LiveNode :=
  ⟨crc r.key, r.key, gen, dsExpires w r.exp, siphash secret r.key⟩

/-- A record on a map of nodes. -/
def recordNode (type : DsType) (nodes : Bytes → Option LiveNode) (r : Record) :
    Bytes → Option LiveNode :=
  if r.op = 2 then Function.update nodes r.key none
  else if r.op = 1 ∧ ValidKey type r.key then
    Function.update nodes r.key (some (nodeOf crc siphash w secret gen r))
  else nodes

variable {crc bal siphash w secret gen} {slot : Slot}

/-- The nodes of a slot have distinct keys. -/
theorem Exact.data_nodup (hx : Exact crc slot) : (slot.nodes.map LiveNode.data).Nodup := by
  have hnd := hx.nodes_nodup
  rw [List.Nodup, List.pairwise_map] at hnd ⊢
  refine hnd.imp_of_mem fun {a b} ha hb hne heq => hne ?_
  rw [LiveNode.id, LiveNode.id, (hx.keyed ha).hash_eq, (hx.keyed hb).hash_eq, heq]

/-- Keys of which the overlay has some, and one that it has not, leave room for it. -/
theorem length_lt (hx : Exact crc slot) {keys : List Bytes} {key : Bytes}
    (hin : ∀ ln ∈ slot.nodes, ln.data ∈ keys) (hkey : key ∈ keys) (hnone : slot.find crc key = none) :
    slot.nodes.length < keys.length := by
  have hnew : key ∉ slot.nodes.map LiveNode.data := by
    intro hmem
    obtain ⟨ln, hln, hdata⟩ := List.mem_map.1 hmem
    rw [(find_eq_some hx).2 ⟨hln, hdata⟩] at hnone
    cases hnone
  have hsub : key :: slot.nodes.map LiveNode.data ⊆ keys := by
    intro k hk
    rcases List.mem_cons.1 hk with rfl | hk
    · exact hkey
    · obtain ⟨ln, hln, rfl⟩ := List.mem_map.1 hk
      exact hin ln hln
  have hlen := (List.subperm_of_subset (List.nodup_cons.2 ⟨hnew, hx.data_nodup⟩) hsub).length_le
  rw [List.length_cons, List.length_map] at hlen
  omega

/-- A pass goes on from a slot: its books, its place, and the keys it has. -/
structure Passed (crc : Bytes → ℕ) (slot t : Slot) (keys : List Bytes) : Prop where
  exact : Exact crc t
  framed : Framed slot t
  gen : liveGen t = liveGen slot
  keys : ∀ ln ∈ t.nodes, ln.data ∈ keys

theorem Framed.type {s t : Slot} (h : Framed s t) : t.type = s.type := by
  rw [h]

theorem Framed.liveLimit {s t : Slot} (h : Framed s t) : t.liveLimit = s.liveLimit := by
  rw [h]
  rfl

/-- **One record.**  With room for all keys, the overlay does what the map does. -/
theorem record_spec (bal : Balance LiveNode.id) (gen : ℕ) {t : Slot} {keys : List Bytes}
    (ht : Passed crc slot t keys)
    (hlen : keys.length ≤ slot.liveLimit) {r : Record}
    (hkey : r.op = 1 → ValidKey slot.type r.key → r.key ∈ keys)
    (hh : r.op = 1 → siphash secret r.key ≠ 0) :
    Passed crc slot (applyRecord crc bal siphash w secret gen t r) keys ∧
      (applyRecord crc bal siphash w secret gen t r).find crc =
        recordNode crc siphash w secret gen slot.type (t.find crc) r := by
  have hx := ht.exact
  have hall : Exact crc (applyRecord crc bal siphash w secret gen t r) ∧
      Framed t (applyRecord crc bal siphash w secret gen t r) ∧
      liveGen (applyRecord crc bal siphash w secret gen t r) = liveGen t ∧
      (applyRecord crc bal siphash w secret gen t r).find crc =
        recordNode crc siphash w secret gen slot.type (t.find crc) r := by
    unfold applyRecord recordNode
    by_cases hdrop : r.op = 2
    · rw [if_pos hdrop, if_pos hdrop]
      refine ⟨exact_liveDrop hx r.key, framed_liveDrop r.key, gen_drop t r.key, ?_⟩
      funext k
      rw [find_drop hx k, Function.update_apply]
    · rw [if_neg hdrop, if_neg hdrop]
      by_cases hadd : r.op = 1
      · rw [if_neg (not_not.2 hadd)]
        refine ⟨exact_livePut hx _ _ _ _ _, framed_livePut _ _ _ _ _, gen_put t _ _ _ _ _, ?_⟩
        by_cases hvalid : ValidKey slot.type r.key
        · rw [if_pos ⟨hadd, hvalid⟩]
          funext k
          have hvalid' : ValidKey t.type r.key := ht.framed.type.symm ▸ hvalid
          by_cases hk : k = r.key
          · rw [hk, Function.update_self]
            refine find_put hx hvalid' (hh hadd) fun hnone => ?_
            rw [ht.framed.liveLimit]
            exact lt_of_lt_of_le (length_lt hx ht.keys (hkey hadd hvalid) hnone) hlen
          · rw [Function.update_of_ne hk]
            exact find_livePut_other hx hk
        · rw [if_neg fun h => hvalid h.2, put_invalid (ht.framed.type.symm ▸ hvalid)]
      · rw [if_pos hadd, if_neg fun h => hadd h.1]
        exact ⟨hx, Framed.refl t, rfl, rfl⟩
  obtain ⟨hx', hframed, hgen, hfind⟩ := hall
  refine ⟨⟨hx', ht.framed.trans hframed, hgen.trans ht.gen, fun ln hln => ?_⟩, hfind⟩
  have hold : ∀ a, t.find crc ln.data = some a → ln.data ∈ keys := by
    intro a ha
    obtain ⟨hmem, hdata⟩ := (find_eq_some hx).1 ha
    exact hdata ▸ ht.keys a hmem
  have hfound := (find_eq_some hx').2 ⟨hln, rfl⟩
  rw [hfind, recordNode] at hfound
  split_ifs at hfound with hdrop hadd
  · by_cases hk : ln.data = r.key
    · rw [hk, Function.update_self] at hfound
      cases hfound
    · rw [Function.update_of_ne hk] at hfound
      exact hold ln hfound
  · by_cases hk : ln.data = r.key
    · rw [hk]
      exact hkey hadd.1 hadd.2
    · rw [Function.update_of_ne hk] at hfound
      exact hold ln hfound
  · exact hold ln hfound

/-- **All records.** -/
theorem records_spec (bal : Balance LiveNode.id) (gen : ℕ) {t : Slot} {keys : List Bytes}
    (ht : Passed crc slot t keys)
    (hlen : keys.length ≤ slot.liveLimit) {rs : List Record}
    (hkeys : ∀ r ∈ rs, r.op = 1 → ValidKey slot.type r.key → r.key ∈ keys)
    (hh : ∀ r ∈ rs, r.op = 1 → siphash secret r.key ≠ 0) :
    Passed crc slot (rs.foldl (applyRecord crc bal siphash w secret gen) t) keys ∧
      (rs.foldl (applyRecord crc bal siphash w secret gen) t).find crc =
        rs.foldl (recordNode crc siphash w secret gen slot.type) (t.find crc) := by
  induction rs generalizing t with
  | nil => exact ⟨ht, rfl⟩
  | cons r rs ih =>
    obtain ⟨ht', hfind⟩ := record_spec bal gen (w := w) ht hlen
      (hkeys r List.mem_cons_self) (hh r List.mem_cons_self)
    obtain ⟨hlast, hall⟩ := ih ht' (fun a ha => hkeys a (List.mem_cons_of_mem r ha))
      fun a ha => hh a (List.mem_cons_of_mem r ha)
    refine ⟨hlast, ?_⟩
    rw [List.foldl_cons, List.foldl_cons, hall, hfind]

/-- The records that the pass of marks and the pass of puts look at. -/
def adds (rs : List Record) : List Record := rs.filter fun r => r.op = 1

/-- **The pass that marks.** -/
theorem marks_spec (gen : ℕ) (hx : Exact crc slot) (rs : List Record) :
    Exact crc (rs.foldl (markRecord crc gen 0) slot) ∧
      Framed slot (rs.foldl (markRecord crc gen 0) slot) ∧
      liveGen (rs.foldl (markRecord crc gen 0) slot) = liveGen slot ∧
      ∀ k, (rs.foldl (markRecord crc gen 0) slot).find crc k =
        (slot.find crc k).map fun ln =>
          if k ∈ (adds rs).map Record.key then { ln with gen := gen } else ln := by
  induction rs generalizing slot with
  | nil => exact ⟨hx, Framed.refl slot, rfl, fun k => by simp [adds]⟩
  | cons r rs ih =>
    have hx' : Exact crc (markRecord crc gen 0 slot r) := exact_markRecord gen 0 r hx
    obtain ⟨hxt, hframed, hgen, hfind⟩ := ih hx'
    have hone : Framed slot (markRecord crc gen 0 slot r) ∧
        liveGen (markRecord crc gen 0 slot r) = liveGen slot ∧
        ∀ k, (markRecord crc gen 0 slot r).find crc k =
          (slot.find crc k).map fun ln =>
            if r.op = 1 ∧ k = r.key then { ln with gen := gen } else ln := by
      unfold markRecord
      by_cases hadd : r.op = 1
      · rw [if_pos hadd]
        refine ⟨framed_liveMark r.key gen, gen_mark slot r.key gen, fun k => ?_⟩
        simp only [find_mark hx k, hadd, true_and]
      · rw [if_neg hadd]
        refine ⟨Framed.refl slot, rfl, fun k => ?_⟩
        simp only [hadd, false_and, if_false, Option.map_id']
    obtain ⟨hframed', hgen', hfind'⟩ := hone
    refine ⟨hxt, hframed'.trans hframed, hgen.trans hgen', fun k => ?_⟩
    rw [List.foldl_cons, hfind k, hfind' k, Option.map_map]
    congr 1
    funext ln
    have hmem : k ∈ (adds (r :: rs)).map Record.key ↔
        (r.op = 1 ∧ k = r.key) ∨ k ∈ (adds rs).map Record.key := by
      unfold adds
      rw [List.filter_cons]
      by_cases hadd : r.op = 1
      · simp only [hadd, decide_true, if_true, List.map_cons, List.mem_cons, true_and]
      · simp only [hadd, decide_false, Bool.false_eq_true, if_false, false_and, false_or]
    simp only [Function.comp_apply]
    rw [if_congr hmem rfl rfl]
    by_cases hmark : r.op = 1 ∧ k = r.key
    · rw [if_pos hmark, if_pos (Or.inl hmark), ite_self]
    · rw [if_neg hmark]
      exact (if_congr (or_iff_right hmark) rfl rfl).symm

/-- A map of which the pass writes every key that it has is forgotten. -/
theorem foldl_recordNode_congr {type : DsType} {F G : Bytes → Option LiveNode} {rs : List Record}
    {k : Bytes} (hk : F k = G k ∨ ∃ r ∈ rs, r.op = 1 ∧ ValidKey type r.key ∧ r.key = k) :
    rs.foldl (recordNode crc siphash w secret gen type) F k =
      rs.foldl (recordNode crc siphash w secret gen type) G k := by
  induction rs generalizing F G with
  | nil =>
    rcases hk with hk | ⟨r, hr, -⟩
    · exact hk
    · exact absurd hr List.not_mem_nil
  | cons a rs ih =>
    rw [List.foldl_cons, List.foldl_cons]
    refine ih ?_
    by_cases hlater : ∃ r ∈ rs, r.op = 1 ∧ ValidKey type r.key ∧ r.key = k
    · exact .inr hlater
    refine .inl ?_
    have hcase : F k = G k ∨ a.op = 1 ∧ ValidKey type a.key ∧ a.key = k := by
      rcases hk with hk | ⟨r, hr, hadd⟩
      · exact .inl hk
      · rcases List.mem_cons.1 hr with rfl | hr
        · exact .inr hadd
        · exact absurd ⟨r, hr, hadd⟩ hlater
    unfold recordNode
    by_cases hdrop : a.op = 2
    · rw [if_pos hdrop, if_pos hdrop, Function.update_apply, Function.update_apply]
      rcases hcase with hk | ⟨hadd, -⟩
      · rw [hk]
      · rw [hdrop] at hadd
        exact absurd hadd (by decide)
    · rw [if_neg hdrop, if_neg hdrop]
      by_cases hadd : a.op = 1 ∧ ValidKey type a.key
      · rw [if_pos hadd, if_pos hadd, Function.update_apply, Function.update_apply]
        by_cases heq : k = a.key
        · rw [if_pos heq, if_pos heq]
        · rw [if_neg heq, if_neg heq]
          rcases hcase with hk | ⟨-, -, hk⟩
          · exact hk
          · exact absurd hk.symm heq
      · rw [if_neg hadd, if_neg hadd]
        rcases hcase with hk | ⟨hop, hvalid, -⟩
        · exact hk
        · exact absurd ⟨hop, hvalid⟩ hadd

/-! ### Snapshots and packages that are taken -/

theorem framed_applyRecord (crc : Bytes → ℕ) (bal : Balance LiveNode.id) (slot : Slot) (r : Record) :
    Framed slot (applyRecord crc bal siphash w secret gen slot r) := by
  unfold applyRecord
  split_ifs
  · exact framed_liveDrop r.key
  · exact Framed.refl slot
  · exact framed_livePut _ _ _ _ _

/-- The pass of puts is a pass over the records that add. -/
theorem foldl_snapshotRecord (hroom : ∀ i, w.room i = (true, true)) (rs : List Record) :
    rs.foldl (snapshotRecord crc bal siphash w secret gen 0) slot =
      (adds rs).foldl (applyRecord crc bal siphash w secret gen) slot := by
  rw [adds, List.foldl_filter]
  congr 1
  funext s r
  unfold snapshotRecord applyRecord
  rw [hroom 0]
  by_cases hadd : r.op = 1
  · rw [if_neg (not_not.2 hadd), if_pos (decide_eq_true hadd), if_neg]
    rw [hadd]
    decide
  · rw [if_pos hadd, if_neg]
    simpa using hadd

/-- A package is hashed under the key of the slot, which no record changes. -/
theorem foldl_packageRecord (hroom : ∀ i, w.room i = (true, true)) (hsecret : slot.key = secret)
    (rs : List Record) :
    rs.foldl (packageRecord crc bal siphash w gen 0) slot =
      rs.foldl (applyRecord crc bal siphash w secret gen) slot := by
  induction rs generalizing slot with
  | nil => rfl
  | cons r rs ih =>
    have hone : packageRecord crc bal siphash w gen 0 slot r =
        applyRecord crc bal siphash w secret gen slot r := by
      unfold packageRecord applyRecord
      rw [hroom 0, hsecret]
    rw [List.foldl_cons, List.foldl_cons, hone]
    refine ih ?_
    rw [framed_applyRecord crc bal slot r]
    exact hsecret

/-- A refusal is not an answer that takes the data. -/
theorem not_refused {o : Outcome} (htaken : o.code.refuses = false) {code : Applied}
    (hcode : code.refuses = true) (h : some (⟨code, slot, []⟩ : Outcome) = some o) : False := by
  cases h
  rw [hcode] at htaken
  cases htaken

/-- What a snapshot that is taken has gone through. -/
theorem applySnapshot_taken {ds : DatasetLimits} {data : Bytes} {o : Outcome}
    (ho : applySnapshot crc bal siphash w ds slot data = some o) (htaken : o.code.refuses = false) :
    ∃ head start rs gen begun marked swept t, packHead data = some (head, start) ∧ head.kind = 1 ∧
      scan head.type head.flags start = some rs ∧ (adds rs).length ≤ slot.liveLimit ∧
      liveBegin slot (w.room rs.length).1 = some (gen, begun) ∧
      batches head.type head.flags (markRecord crc gen) (start.length + 1)
        ⟨{ begun with syncing := true }, start, []⟩ = some marked ∧
      sweepAll bal gen (marked.slot.nodes.length + 1) none marked.slot = some swept ∧
      batches head.type head.flags (snapshotRecord crc bal siphash w head.key gen)
        (start.length + 1) ⟨swept, start, []⟩ = some t ∧
      o.code = (if t.slot.liveHash ≠ head.hash then .diverged else .applied) ∧
      o.slot = { t.slot with
        epoch := head.epoch
        seq := head.seq
        key := head.key
        syncing := false
        snapBad := decide (t.slot.liveHash ≠ head.hash) } ∧ o.passes = [marked.seen, t.seen] := by
  -- Every early return is a refusal, so that only the way to the last pass is left.
  unfold applySnapshot at ho
  cases hhead : packHead data with
  | none =>
    rw [hhead] at ho
    exact (not_refused htaken rfl ho).elim
  | some hc =>
    obtain ⟨head, start⟩ := hc
    rw [hhead] at ho
    simp only at ho
    by_cases hkind : head.kind = 1
    · rw [if_neg (not_not.2 hkind)] at ho
      split at ho
      · exact (not_refused htaken rfl ho).elim
      cases hscan : scan head.type head.flags start with
      | none =>
        rw [hscan] at ho
        exact (not_refused htaken rfl ho).elim
      | some rs =>
        rw [hscan] at ho
        simp only at ho
        by_cases hcap : head.count > min slot.liveLimit ds.max ∨
            (rs.countP fun r => r.op = 1) > min slot.liveLimit ds.max
        · rw [if_pos hcap] at ho
          exact (not_refused htaken rfl ho).elim
        rw [if_neg hcap] at ho
        split at ho
        · exact (not_refused htaken rfl ho).elim
        split at ho
        · exact (not_refused htaken rfl ho).elim
        cases hbegin : liveBegin slot (w.room rs.length).1 with
        | none =>
          rw [hbegin] at ho
          exact (not_refused htaken rfl ho).elim
        | some gb =>
          obtain ⟨gen, begun⟩ := gb
          rw [hbegin] at ho
          simp only at ho
          obtain ⟨marked, hmarked, ho⟩ := Option.bind_eq_some_iff.1 ho
          obtain ⟨swept, hswept, ho⟩ := Option.bind_eq_some_iff.1 ho
          obtain ⟨t, ht, rfl⟩ := Option.map_eq_some_iff.1 ho
          have hlen : (adds rs).length ≤ slot.liveLimit := by
            rw [adds, ← List.countP_eq_length_filter]
            omega
          exact ⟨head, start, rs, gen, begun, marked, swept, t, rfl, hkind, hscan, hlen, hbegin,
            hmarked, hswept, ht, rfl, rfl, rfl⟩
    · rw [if_pos hkind] at ho
      exact (not_refused htaken rfl ho).elim

/-- What is left of an overlay before the puts of a snapshot: nodes of its own records only. -/
theorem swept_spec {gen : ℕ} {ensured : Bool} {begun marked swept : Slot} {rs : List Record}
    (hx : Exact crc slot) (haged : ∀ k ln, slot.find crc k = some ln → ln.gen = liveGen slot)
    (hbegin : liveBegin slot ensured = some (gen, begun))
    (hmarked : marked = rs.foldl (markRecord crc gen 0) { begun with syncing := true })
    (hswept : sweepAll bal gen (marked.nodes.length + 1) none marked = some swept) :
    Exact crc swept ∧ Framed { slot with syncing := true } swept ∧ liveGen swept = gen ∧
      ∀ ln ∈ swept.nodes, ln.data ∈ (adds rs).map Record.key := by
  obtain ⟨hgen, hfresh, hsame⟩ := gen_begin hbegin
  have hxbegun : Exact crc begun := exact_liveBegin hx hbegin
  have hxb : Exact crc { begun with syncing := true } := hxbegun
  have hbegun : Framed { slot with syncing := true } { begun with syncing := true } := by
    have hframe : Framed slot begun := framed_liveBegin hbegin
    unfold Framed at hframe ⊢
    rw [hframe]
  obtain ⟨hxm, hframedm, hgenm, hfindm⟩ := marks_spec gen hxb rs
  rw [← hmarked] at hxm hframedm hgenm hfindm
  obtain ⟨hxs, hfinds⟩ := find_sweepAll hxm hswept
  obtain ⟨swept', hswept', hframeds⟩ := sweepAll_ends bal gen hxm
  obtain rfl : swept = swept' := Option.some.inj (hswept.symm.trans hswept')
  refine ⟨hxs, (hbegun.trans hframedm).trans hframeds,
    (gen_sweepAll hswept).trans (hgenm.trans hgen), fun ln hln => ?_⟩
  -- Every node was of the old generation, so that one without a mark did not outlive the sweeps.
  have hfound := (find_eq_some hxs).2 ⟨hln, rfl⟩
  rw [hfinds, hfindm, Option.filter_eq_some_iff] at hfound
  obtain ⟨hmarked, hlngen⟩ := hfound
  obtain ⟨a, ha, hnode⟩ := Option.map_eq_some_iff.1 hmarked
  by_contra hk
  rw [if_neg hk] at hnode
  have hold : begun.find crc ln.data = slot.find crc ln.data :=
    find_ext hxbegun hx ln.data fun b _ => by rw [hsame]
  rw [← hnode, decide_eq_true_eq] at hlngen
  exact hfresh (hlngen.symm.trans (haged _ a (hold.symm.trans ha)))

/-- **A snapshot that is taken.**  Whatever the overlay had, it has what the records add. -/
theorem snapshot_spec {ds : DatasetLimits} {data : Bytes} {o : Outcome} (hx : Exact crc slot)
    (haged : ∀ k ln, slot.find crc k = some ln → ln.gen = liveGen slot)
    (hroom : ∀ i, w.room i = (true, true))
    (ho : applySnapshot crc bal siphash w ds slot data = some o) (htaken : o.code.refuses = false)
    (hh : ∀ head start rs, packHead data = some (head, start) →
      scan head.type head.flags start = some rs → ∀ r ∈ rs, r.op = 1 → siphash head.key r.key ≠ 0) :
    ∃ head start rs, packHead data = some (head, start) ∧ head.kind = 1 ∧
      scan head.type head.flags start = some rs ∧ Exact crc o.slot ∧
      o.slot = { slot with
        live := o.slot.live
        liveHash := o.slot.liveHash
        epoch := head.epoch
        seq := head.seq
        key := head.key
        syncing := false
        snapBad := o.slot.snapBad } ∧
      o.slot.find crc = (adds rs).foldl
        (recordNode crc siphash w head.key (liveGen o.slot) slot.type) (fun _ => none) ∧
      (o.code = .applied ↔ o.slot.liveHash = head.hash) := by
  obtain ⟨head, start, rs, gen, begun, marked, swept, t, hhead, hkind, hscan, hlen, hbegin, hmarked,
    hswept, ht, hcode, hslot, -⟩ := applySnapshot_taken ho htaken
  have hp := scan_parses hscan
  have hmark : marked.slot = rs.foldl (markRecord crc gen 0) { begun with syncing := true } :=
    batches_fold (g := markRecord crc gen 0) (fun _ _ _ => rfl)
      ⟨{ begun with syncing := true }, start, []⟩ hp hmarked
  obtain ⟨hxs, hframed, hgens, hkept⟩ := swept_spec hx haged hbegin hmark hswept
  -- The puts.  What the sweeps left has a record of its own, so that there is room for all.
  have hput : t.slot = (adds rs).foldl (applyRecord crc bal siphash w head.key gen) swept := by
    rw [← foldl_snapshotRecord hroom]
    refine batches_fold (fun i s r => ?_) ⟨swept, start, []⟩ hp ht
    unfold snapshotRecord
    rw [hroom i, hroom 0]
  have htype : swept.type = slot.type := hframed.type
  have hlimit : swept.liveLimit = slot.liveLimit := hframed.liveLimit
  have hpassed : Passed crc swept swept ((adds rs).map Record.key) :=
    ⟨hxs, Framed.refl swept, rfl, hkept⟩
  obtain ⟨hlast, hfind⟩ := records_spec bal gen (w := w) hpassed
    (by rw [List.length_map, hlimit]; exact hlen)
    (fun r hr _ _ => List.mem_map_of_mem hr)
    fun r hr => hh head start rs hhead hscan r (List.mem_of_mem_filter hr)
  rw [← hput] at hlast hfind
  have hgent : liveGen o.slot = gen := by
    rw [hslot]
    exact hlast.gen.trans hgens
  refine ⟨head, start, rs, hhead, hkind, hscan, ?_, ?_, ?_, ?_⟩
  · rw [hslot]
    exact hlast.exact
  · have hframe := hframed.trans hlast.framed
    unfold Framed at hframe
    rw [hslot, hframe]
  · rw [hgent, hslot]
    refine (funext fun k => ?_ : t.slot.find crc = _)
    rw [hfind, htype]
    refine foldl_recordNode_congr ?_
    -- An entry that was there before is put again, so that the fold does not depend on it.
    cases hk : swept.find crc k with
    | none => exact .inl rfl
    | some ln =>
      obtain ⟨hmem, hdata⟩ := (find_eq_some hxs).1 hk
      obtain ⟨r, hr, hrk⟩ := List.mem_map.1 (hkept ln hmem)
      rw [hdata] at hrk
      refine .inr ⟨r, hr, of_decide_eq_true (List.mem_filter.1 hr).2, ?_, hrk⟩
      rw [hrk, ← htype]
      exact (hxs.valid hk).1
  · rw [hcode, hslot]
    by_cases hhash : t.slot.liveHash = head.hash
    · simp [hhash]
    · simp [hhash]

/-- What a package that is taken has gone through. -/
theorem applyPackage_taken {ds : DatasetLimits} {data : Bytes} {o : Outcome}
    (ho : applyPackage crc bal siphash w ds slot data = some o) (htaken : o.code.refuses = false) :
    ∃ head cur rs t, packHead data = some (head, cur) ∧ head.kind = 2 ∧
      scan head.type head.flags cur = some rs ∧ slot.epoch ≠ 0 ∧ head.epoch = slot.epoch ∧
      head.seq = slot.seq + 1 ∧
      batches head.type head.flags (packageRecord crc bal siphash w (liveGen slot))
        (cur.length + 1) ⟨{ slot with syncing := true }, cur, []⟩ = some t ∧
      o.code = (if t.slot.liveHash ≠ head.hash then .diverged else .applied) ∧
      o.slot = { t.slot with seq := head.seq, syncing := false } ∧ o.passes = [t.seen] := by
  unfold applyPackage at ho
  cases hhead : packHead data with
  | none =>
    rw [hhead] at ho
    exact (not_refused htaken rfl ho).elim
  | some hc =>
    obtain ⟨head, cur⟩ := hc
    rw [hhead] at ho
    simp only at ho
    by_cases hkind : head.kind = 2
    · rw [if_neg (not_not.2 hkind)] at ho
      split at ho
      · exact (not_refused htaken rfl ho).elim
      cases hscan : scan head.type head.flags cur with
      | none =>
        rw [hscan] at ho
        exact (not_refused htaken rfl ho).elim
      | some rs =>
        rw [hscan] at ho
        simp only at ho
        by_cases hforeign : slot.epoch = 0 ∨ head.epoch ≠ slot.epoch
        · rw [if_pos hforeign] at ho
          exact (not_refused htaken rfl ho).elim
        rw [if_neg hforeign] at ho
        split at ho
        · exact (not_refused htaken rfl ho).elim
        split at ho
        · exact (not_refused htaken rfl ho).elim
        by_cases hseq : head.seq = slot.seq + 1
        · rw [if_neg (not_not.2 hseq)] at ho
          obtain ⟨hepoch, hsame⟩ := not_or.1 hforeign
          split at ho
          · cases ho
          · next t ht =>
            cases ho
            exact ⟨head, cur, rs, t, rfl, hkind, hscan, hepoch, not_not.1 hsame, hseq, ht, rfl, rfl,
              rfl⟩
        · rw [if_pos hseq] at ho
          exact (not_refused htaken rfl ho).elim
    · rw [if_pos hkind] at ho
      exact (not_refused htaken rfl ho).elim

/-- **A package that is taken.**  With room for what it adds, the overlay does what the map does. -/
theorem package_spec {ds : DatasetLimits} {data : Bytes} {o : Outcome} (hx : Exact crc slot)
    (hroom : ∀ i, w.room i = (true, true))
    (ho : applyPackage crc bal siphash w ds slot data = some o) (htaken : o.code.refuses = false)
    (hfits : ∀ head cur rs, packHead data = some (head, cur) →
      scan head.type head.flags cur = some rs →
      slot.nodes.length + (adds rs).length ≤ slot.liveLimit ∧
        (head.epoch = slot.epoch → ∀ r ∈ rs, r.op = 1 → siphash slot.key r.key ≠ 0)) :
    ∃ head cur rs, packHead data = some (head, cur) ∧ head.kind = 2 ∧
      scan head.type head.flags cur = some rs ∧ slot.epoch ≠ 0 ∧ head.epoch = slot.epoch ∧
      head.seq = slot.seq + 1 ∧ Exact crc o.slot ∧
      o.slot = { slot with
        live := o.slot.live
        liveHash := o.slot.liveHash
        seq := head.seq
        syncing := false } ∧
      liveGen o.slot = liveGen slot ∧ o.passes = [rs] ∧
      o.slot.find crc =
        rs.foldl (recordNode crc siphash w slot.key (liveGen slot) slot.type) (slot.find crc) ∧
      (o.code = .applied ↔ o.slot.liveHash = head.hash) := by
  obtain ⟨head, cur, rs, t, hhead, hkind, hscan, hepoch, hsame, hseq, ht, hcode, hslot, hpasses⟩ :=
    applyPackage_taken ho htaken
  obtain ⟨hlen, hh⟩ := hfits head cur rs hhead hscan
  have hseen : t.seen = rs := by
    obtain ⟨u, hu, hseen, -⟩ := batches_of_scan (P := fun _ => True)
      (f := packageRecord crc bal siphash w (liveGen slot)) (fun _ _ _ _ => trivial) hscan
      { slot with syncing := true } trivial
    rw [← Option.some.inj (ht.symm.trans hu)] at hseen
    exact hseen
  have hput : t.slot = rs.foldl (applyRecord crc bal siphash w slot.key (liveGen slot))
      { slot with syncing := true } := by
    have hsecret : ({ slot with syncing := true } : Slot).key = slot.key := rfl
    rw [← foldl_packageRecord hroom hsecret]
    refine batches_fold (fun i s r => ?_) ⟨{ slot with syncing := true }, cur, []⟩
      (scan_parses hscan) ht
    unfold packageRecord
    rw [hroom i, hroom 0]
  have hx' : Exact crc { slot with syncing := true } := hx
  -- Room for the nodes that are there and for all that is added: no put finds the overlay full.
  have hpassed : Passed crc { slot with syncing := true } { slot with syncing := true }
      (slot.nodes.map LiveNode.data ++ (adds rs).map Record.key) :=
    ⟨hx', Framed.refl _, rfl, fun ln hln =>
      List.mem_append_left _ (List.mem_map_of_mem (f := LiveNode.data) hln)⟩
  obtain ⟨hlast, hfind⟩ := records_spec bal (liveGen slot) (w := w) hpassed
    (by rw [List.length_append, List.length_map, List.length_map]; exact hlen)
    (fun r hr hop _ => List.mem_append_right _
      (List.mem_map_of_mem (List.mem_filter.2 ⟨hr, decide_eq_true hop⟩)))
    (hh hsame)
  rw [← hput] at hlast hfind
  refine ⟨head, cur, rs, hhead, hkind, hscan, hepoch, hsame, hseq, ?_, ?_, ?_, ?_, ?_, ?_⟩
  · rw [hslot]
    exact hlast.exact
  · have hframe := hlast.framed
    unfold Framed at hframe
    rw [hslot, hframe]
  · rw [hslot]
    exact hlast.gen
  · rw [hpasses, hseen]
  · rw [hslot]
    exact hfind
  · rw [hcode, hslot]
    by_cases hhash : t.slot.liveHash = head.hash
    · simp [hhash]
    · simp [hhash]

end

/-! ### The mirror of entries -/

section

variable (crc : Bytes → ℕ) (siphash : Bytes → Bytes → UInt64) (secret : Bytes) (gen : ℕ)

/-- The overlay has the entries of a keeper and nothing else.  The end of an entry was taken over
from the keeper in one of the calls, at `ws`.  A local ban of a key (`bans`) may have given it another
end, or a node that is none of the keeper's. -/
structure Mirrored (ws : List World) (bans : List Bytes) (nodes : Bytes → Option LiveNode)
    (m : Entries) : Prop where
  entry : ∀ k exp, m k = some exp → ∃ e, nodes k = some ⟨crc k, k, gen, e, siphash secret k⟩ ∧
    (k ∉ bans → ∃ w ∈ ws, e = dsExpires w exp)
  other : ∀ k, m k = none → nodes k = none ∨ (k ∈ bans ∧ ∃ e, nodes k = some ⟨crc k, k, gen, e, 0⟩)

/-- The bans of which a record of the keeper leaves something. -/
def told (type : DsType) (bans : List Bytes) (r : Record) : List Bytes :=
  if r.op = 2 ∨ (r.op = 1 ∧ ValidKey type r.key) then bans.filter fun k => k ≠ r.key else bans

variable {crc siphash secret gen} {ws : List World} {bans : List Bytes}
  {nodes : Bytes → Option LiveNode} {m : Entries} {w : World}

theorem Mirrored.empty (ws : List World) :
    Mirrored crc siphash secret gen ws [] (fun _ => none) fun _ => none where
  entry k exp h := by cases h
  other k _ := Or.inl rfl

theorem Mirrored.mono (h : Mirrored crc siphash secret gen ws bans nodes m) {vs : List World}
    (hsub : ws ⊆ vs) : Mirrored crc siphash secret gen vs bans nodes m where
  entry k exp hexp := by
    obtain ⟨e, hnode, he⟩ := h.entry k exp hexp
    refine ⟨e, hnode, fun hk => ?_⟩
    obtain ⟨w, hw, rfl⟩ := he hk
    exact ⟨w, hsub hw, rfl⟩
  other := h.other

/-- One key is set or removed on both sides. -/
theorem Mirrored.update (h : Mirrored crc siphash secret gen ws bans nodes m) {key : Bytes}
    {node : Option LiveNode} {exp : Option ℤ}
    (hset : ∀ x, exp = some x →
      ∃ w ∈ ws, node = some ⟨crc key, key, gen, dsExpires w x, siphash secret key⟩)
    (hgone : exp = none → node = none) :
    Mirrored crc siphash secret gen ws (bans.filter fun k => k ≠ key) (Function.update nodes key node)
      (Function.update m key exp) where
  entry k x hx := by
    by_cases hk : k = key
    · subst hk
      rw [Function.update_self] at hx ⊢
      obtain ⟨w, hw, hnode⟩ := hset x hx
      exact ⟨dsExpires w x, hnode, fun _ => ⟨w, hw, rfl⟩⟩
    · rw [Function.update_of_ne hk] at hx ⊢
      obtain ⟨e, hnode, he⟩ := h.entry k x hx
      exact ⟨e, hnode, fun hnot => he fun hin => hnot (List.mem_filter.2 ⟨hin, decide_eq_true hk⟩)⟩
  other k hx := by
    by_cases hk : k = key
    · subst hk
      rw [Function.update_self] at hx ⊢
      exact Or.inl (hgone hx)
    · rw [Function.update_of_ne hk] at hx ⊢
      refine (h.other k hx).imp_right fun hban => ?_
      exact ⟨List.mem_filter.2 ⟨hban.1, decide_eq_true hk⟩, hban.2⟩

/-- **A record** changes the overlay as it changes the entries. -/
theorem Mirrored.record (h : Mirrored crc siphash secret gen ws bans nodes m) (hw : w ∈ ws)
    (type : DsType) (r : Record) :
    Mirrored crc siphash secret gen ws (told type bans r)
      (recordNode crc siphash w secret gen type nodes r) (m.apply type r) := by
  unfold told recordNode Entries.apply
  by_cases hdrop : r.op = 2
  · rw [if_pos hdrop, if_pos hdrop, if_pos (Or.inl hdrop)]
    exact h.update (fun x hx => by cases hx) fun _ => rfl
  · rw [if_neg hdrop, if_neg hdrop]
    by_cases hadd : r.op = 1 ∧ ValidKey type r.key
    · rw [if_pos hadd, if_pos hadd, if_pos (Or.inr hadd)]
      refine h.update (fun x hx => ⟨w, hw, ?_⟩) fun hx => by cases hx
      cases hx
      rfl
    · rw [if_neg hadd, if_neg hadd, if_neg (not_or.2 ⟨hdrop, hadd⟩)]
      exact h

theorem Mirrored.records (h : Mirrored crc siphash secret gen ws bans nodes m) (hw : w ∈ ws)
    (type : DsType) (rs : List Record) :
    Mirrored crc siphash secret gen ws (rs.foldl (told type) bans)
      (rs.foldl (recordNode crc siphash w secret gen type) nodes)
      (rs.foldl (Entries.apply type) m) := by
  induction rs generalizing bans nodes m with
  | nil => exact h
  | cons r rs ih => exact ih (h.record hw type r)

/-- Without bans there are none to be told of. -/
theorem foldl_told_nil (type : DsType) (rs : List Record) : rs.foldl (told type) [] = [] := by
  induction rs with
  | nil => rfl
  | cons r rs ih =>
    have hone : told type [] r = [] := by
      unfold told
      split_ifs <;> rfl
    rw [List.foldl_cons, hone, ih]

/-- **A local ban** touches its own key only, and leaves the hash of an entry. -/
theorem Mirrored.ban (h : Mirrored crc siphash secret gen ws bans nodes m) {key : Bytes}
    {nodes' : Bytes → Option LiveNode} (hother : ∀ k, k ≠ key → nodes' k = nodes k)
    (hself : nodes' key = nodes key ∨
      ∃ e, nodes' key = some ⟨crc key, key, gen, e, ((nodes key).map LiveNode.h).getD 0⟩) :
    Mirrored crc siphash secret gen ws (key :: bans) nodes' m where
  entry k exp hexp := by
    obtain ⟨e, hnode, he⟩ := h.entry k exp hexp
    by_cases hk : k = key
    · subst hk
      rcases hself with hsame | ⟨e', hnew⟩
      · exact ⟨e, hsame.trans hnode, fun hnot => absurd List.mem_cons_self hnot⟩
      · rw [hnode] at hnew
        exact ⟨e', hnew, fun hnot => absurd List.mem_cons_self hnot⟩
    · refine ⟨e, (hother k hk).trans hnode, fun hnot => he fun hin => hnot ?_⟩
      exact List.mem_cons_of_mem _ hin
  other k hexp := by
    by_cases hk : k = key
    · subst hk
      rcases hself with hsame | ⟨e, hnew⟩
      · rw [hsame]
        exact (h.other k hexp).imp_right fun hban => ⟨List.mem_cons_self, hban.2⟩
      · refine Or.inr ⟨List.mem_cons_self, e, ?_⟩
        rcases h.other k hexp with hnone | ⟨-, e', hnode⟩
        · rw [hnone] at hnew
          exact hnew
        · rw [hnode] at hnew
          exact hnew
    · rw [hother k hk]
      exact (h.other k hexp).imp_right fun hban => ⟨List.mem_cons_of_mem _ hban.1, hban.2⟩

/-- Every node of a mirror has the generation of the last snapshot. -/
theorem Mirrored.aged (h : Mirrored crc siphash secret gen ws bans nodes m) {k : Bytes}
    {ln : LiveNode} (hln : nodes k = some ln) : ln.gen = gen := by
  cases hm : m k with
  | none =>
    rcases h.other k hm with hnone | ⟨-, e, hnode⟩
    · rw [hnone] at hln
      cases hln
    · rw [hnode] at hln
      cases hln
      rfl
  | some exp =>
    obtain ⟨e, hnode, -⟩ := h.entry k exp hm
    rw [hnode] at hln
    cases hln
    rfl

/-- Nodes without a hash count for nothing in the XOR. -/
theorem xorAll_filter {p : LiveNode → Bool} {l : List LiveNode}
    (h : ∀ ln ∈ l, p ln = false → ln.h = 0) : xorAll (l.filter p) = xorAll l := by
  induction l with
  | nil => rfl
  | cons ln l ih =>
    have hrest := ih fun a ha => h a (List.mem_cons_of_mem _ ha)
    cases hp : p ln with
    | true => rw [List.filter_cons_of_pos hp, xorAll_cons, xorAll_cons, hrest]
    | false =>
      rw [List.filter_cons_of_neg (by rw [hp]; decide), xorAll_cons, hrest,
        h ln List.mem_cons_self hp, UInt64.zero_xor]

theorem Exact.liveHash_eq {slot : Slot} (hx : Exact crc slot) :
    slot.liveHash = xorAll slot.nodes := by
  cases hl : slot.live with
  | none =>
    unfold Exact at hx
    rw [hl] at hx
    rw [Slot.nodes, hl]
    exact hx
  | some live =>
    rw [Slot.nodes_of hl]
    exact (hx.books hl).hash_eq

/-- The XOR that a keeper computes of keys. -/
def keysHash (siphash : Bytes → Bytes → UInt64) (secret : Bytes) (keys : List Bytes) : UInt64 :=
  (keys.map (siphash secret)).foldr (fun a b => a ^^^ b) 0

theorem keysHash_perm {keys keys' : List Bytes} (h : keys.Perm keys') :
    keysHash siphash secret keys = keysHash siphash secret keys' := by
  have hcomm : LeftCommutative fun a b : UInt64 => a ^^^ b :=
    ⟨fun a b c => by rw [← UInt64.xor_assoc, ← UInt64.xor_assoc, UInt64.xor_comm a]⟩
  exact (h.map _).foldr_eq 0

/-- **The hash of a mirror** is that of the keeper, whatever was banned. -/
theorem Mirrored.hash {slot : Slot} (hx : Exact crc slot)
    (h : Mirrored crc siphash secret gen ws bans (slot.find crc) m) {keys : List Bytes}
    (hnodup : keys.Nodup) (hkeys : ∀ k, k ∈ keys ↔ (m k).isSome = true) :
    slot.liveHash = keysHash siphash secret keys := by
  have hfound : ∀ ln ∈ slot.nodes, slot.find crc ln.data = some ln := fun ln hln =>
    (find_eq_some hx).2 ⟨hln, rfl⟩
  -- A ban of a key that is no entry has the hash zero and drops out of the XOR.
  have hnone : ∀ ln ∈ slot.nodes, (m ln.data).isSome = false → ln.h = 0 := by
    intro ln hln hm
    have hfind := hfound ln hln
    rcases h.other ln.data (Option.isSome_eq_false_iff.1 hm |> Option.isNone_iff_eq_none.1) with
      hgone | ⟨-, e, hban⟩
    · rw [hgone] at hfind
      cases hfind
    · rw [hban] at hfind
      rw [← Option.some.inj hfind]
  have hhash : ∀ ln ∈ slot.nodes, (m ln.data).isSome = true → ln.h = siphash secret ln.data := by
    intro ln hln hm
    obtain ⟨exp, hexp⟩ := Option.isSome_iff_exists.1 hm
    obtain ⟨e, hnode, -⟩ := h.entry ln.data exp hexp
    rw [hfound ln hln] at hnode
    rw [Option.some.inj hnode]
  have hperm : ((slot.nodes.filter fun ln => (m ln.data).isSome).map LiveNode.data).Perm keys := by
    refine (List.perm_ext_iff_of_nodup ?_ hnodup).2 fun k => ?_
    · exact hx.data_nodup.sublist (List.filter_sublist.map _)
    · rw [hkeys, List.mem_map]
      constructor
      · rintro ⟨ln, hln, rfl⟩
        exact (List.mem_filter.1 hln).2
      · intro hm
        obtain ⟨exp, hexp⟩ := Option.isSome_iff_exists.1 hm
        obtain ⟨e, hnode, -⟩ := h.entry k exp hexp
        obtain ⟨hmem, hdata⟩ := (find_eq_some hx).1 hnode
        exact ⟨_, List.mem_filter.2 ⟨hmem, hm⟩, hdata⟩
  calc slot.liveHash = xorAll slot.nodes := hx.liveHash_eq
    _ = xorAll (slot.nodes.filter fun ln => (m ln.data).isSome) := (xorAll_filter hnone).symm
    _ = keysHash siphash secret
          ((slot.nodes.filter fun ln => (m ln.data).isSome).map LiveNode.data) := by
        rw [keysHash, List.map_map, List.foldr_map]
        refine List.foldr_ext _ _ 0 fun ln hln x => ?_
        obtain ⟨hmem, hm⟩ := List.mem_filter.1 hln
        rw [hhash ln hmem hm]
        rfl
    _ = keysHash siphash secret keys := keysHash_perm hperm

end

/-! ### Snapshots -/

section

variable {crc : Bytes → ℕ} {bal : Balance LiveNode.id} {siphash : Bytes → Bytes → UInt64} {w : World}
  {slot : Slot}

/-- A pass over the records of a snapshot fills an empty map. -/
theorem mirrored_load {secret : Bytes} {gen : ℕ} (type : DsType) (rs : List Record) :
    Mirrored crc siphash secret gen [w] []
      ((adds rs).foldl (recordNode crc siphash w secret gen type) fun _ => none)
      (Entries.load type rs) := by
  have hall : Mirrored crc siphash secret gen [w] ((adds rs).foldl (told type) []) _ _ :=
    (Mirrored.empty [w]).records List.mem_cons_self type (adds rs)
  rwa [foldl_told_nil] at hall

/-- **A snapshot replaces the overlay.**  With memory for its nodes, a snapshot that is taken and adds
no key with the hash zero (such a put counts as a local ban) leaves exactly its own entries, each
under its hash key with its own end, whatever the keeper sent and the node banned before; the rest of
the slot is at the snapshot's place, and the call reports a divergence only when the header's hash is
not that of the entries. -/
theorem snapshot_replaces {ds : DatasetLimits} {data : Bytes} {o : Outcome} (hx : Exact crc slot)
    (haged : ∀ k ln, slot.find crc k = some ln → ln.gen = liveGen slot)
    (hroom : ∀ i, w.room i = (true, true))
    (ho : applySnapshot crc bal siphash w ds slot data = some o) (htaken : o.code.refuses = false)
    (hh : ∀ head start rs, packHead data = some (head, start) →
      scan head.type head.flags start = some rs → ∀ r ∈ rs, r.op = 1 → siphash head.key r.key ≠ 0) :
    ∃ head start rs, packHead data = some (head, start) ∧
      scan head.type head.flags start = some rs ∧ Exact crc o.slot ∧
      o.slot = { slot with
        live := o.slot.live
        liveHash := o.slot.liveHash
        epoch := head.epoch
        seq := head.seq
        key := head.key
        syncing := false
        snapBad := o.slot.snapBad } ∧
      Mirrored crc siphash head.key (liveGen o.slot) [w] [] (o.slot.find crc)
        (Entries.load slot.type rs) ∧
      ∀ keys : List Bytes, keys.Nodup →
        (∀ k, k ∈ keys ↔ (Entries.load slot.type rs k).isSome = true) →
        (o.code = .applied ↔ head.hash = keysHash siphash head.key keys) := by
  obtain ⟨head, start, rs, hhead, -, hscan, hxo, hslot, hfind, hcode⟩ :=
    snapshot_spec hx haged hroom ho htaken hh
  have hmirror : Mirrored crc siphash head.key (liveGen o.slot) [w] [] (o.slot.find crc)
      (Entries.load slot.type rs) := by
    rw [hfind]
    exact mirrored_load slot.type rs
  refine ⟨head, start, rs, hhead, hscan, hxo, hslot, hmirror, fun keys hnodup hkeys => ?_⟩
  rw [hcode, hmirror.hash hxo hnodup hkeys]
  exact eq_comm

/-- A snapshot of the entries `0x62`, without an end, and `0x63`, with the end 5000, at sequence
number 7 of epoch 1. -/
def oneSnapshot : Bytes :=
  [0x57, 0x41, 0x46, 0x53, 1, 1, 2, 0] ++ [1, 0, 0, 0, 0, 0, 0, 0] ++ [7, 0, 0, 0, 0, 0, 0, 0] ++
    [1, 0, 0, 0, 0, 0, 0, 0] ++ List.replicate 16 0 ++ [2, 0, 0, 0] ++
    [1, 1, 0, 0x62, 0, 0, 0, 0, 0, 0, 0, 0] ++ [1, 1, 0, 0x63, 0x88, 0x13, 0, 0, 0, 0, 0, 0]

theorem packHead_oneSnapshot : packHead oneSnapshot =
    some (⟨1, 2, 0, 1, 7, 1, List.replicate 16 0, 2⟩,
      [1, 1, 0, 0x62, 0, 0, 0, 0, 0, 0, 0, 0] ++ [1, 1, 0, 0x63, 0x88, 0x13, 0, 0, 0, 0, 0, 0]) := by
  decide +kernel

theorem scan_oneSnapshot :
    scan 2 0 ([1, 1, 0, 0x62, 0, 0, 0, 0, 0, 0, 0, 0] ++
      [1, 1, 0, 0x63, 0x88, 0x13, 0, 0, 0, 0, 0, 0]) = some [⟨1, [0x62], 0⟩, ⟨1, [0x63], 5000⟩] := by
  decide +kernel

/-- The filled dataset with a local ban of `0x64`. -/
def bannedSlot : Slot :=
  (livePut Rate.crc32 (Balance.plain LiveNode.id) filledSlot [0x64] 9000 0 1 (true, true)).2

theorem exact_bannedSlot : Exact Rate.crc32 bannedSlot :=
  exact_livePut exact_filledSlot [0x64] 9000 0 1 (true, true)

theorem aged_bannedSlot (k : Bytes) (ln : LiveNode) (h : bannedSlot.find Rate.crc32 k = some ln) :
    ln.gen = liveGen bannedSlot := by
  have hgens : bannedSlot.nodes.map LiveNode.gen = [1, 1, 1] ∧ liveGen bannedSlot = 1 := by
    decide +kernel
  have hmem : ln.gen ∈ bannedSlot.nodes.map LiveNode.gen :=
    List.mem_map_of_mem ((find_eq_some exact_bannedSlot).1 h).1
  rw [hgens.1] at hmem
  rw [hgens.2]
  simpa using hmem

/-- The snapshot keeps its entries and sweeps the ban. -/
theorem snapshot_replaces_one :
    ∃ o, applySnapshot Rate.crc32 (Balance.plain LiveNode.id) headHash calmWorld ⟨.string, 10⟩
        bannedSlot oneSnapshot = some o ∧
      o.slot.seq = 7 ∧
      o.slot.find Rate.crc32 [0x63] =
        some ⟨Rate.crc32 [0x63], [0x63], liveGen o.slot, dsExpires calmWorld 5000, 0x63⟩ ∧
      o.slot.find Rate.crc32 [0x64] = none := by
  obtain ⟨o, ho, -⟩ := sound_applySnapshot Rate.crc32 (Balance.plain LiveNode.id) headHash calmWorld
    ⟨.string, 10⟩ bannedSlot oneSnapshot exact_bannedSlot
  have hcode : (applySnapshot Rate.crc32 (Balance.plain LiveNode.id) headHash calmWorld ⟨.string, 10⟩
      bannedSlot oneSnapshot).map Outcome.code = some .applied := by decide +kernel
  rw [ho, Option.map_some, Option.some.injEq] at hcode
  obtain ⟨head, start, rs, hhead, hscan, -, hslot, hmirror, -⟩ :=
    snapshot_replaces exact_bannedSlot aged_bannedSlot (fun _ => rfl) ho (by rw [hcode]; rfl)
      fun head start rs hhead hscan => by
        rw [packHead_oneSnapshot, Option.some.injEq, Prod.mk.injEq] at hhead
        obtain ⟨rfl, rfl⟩ := hhead
        rw [scan_oneSnapshot, Option.some.injEq] at hscan
        subst hscan
        decide
  rw [packHead_oneSnapshot, Option.some.injEq, Prod.mk.injEq] at hhead
  obtain ⟨rfl, rfl⟩ := hhead
  rw [scan_oneSnapshot, Option.some.injEq] at hscan
  subst hscan
  have htype : bannedSlot.type = .string := by decide +kernel
  have hload : Entries.load .string [⟨1, [0x62], 0⟩, ⟨1, [0x63], 5000⟩] [0x63] = some 5000 ∧
      Entries.load .string [⟨1, [0x62], 0⟩, ⟨1, [0x63], 5000⟩] [0x64] = none := by decide +kernel
  rw [htype] at hmirror
  obtain ⟨e, hnode, he⟩ := hmirror.entry [0x63] 5000 hload.1
  obtain ⟨w, hw, rfl⟩ := he List.not_mem_nil
  obtain rfl := List.mem_singleton.1 hw
  have hgone := (hmirror.other [0x64] hload.2).resolve_right fun h => List.not_mem_nil h.1
  exact ⟨o, ho, by rw [hslot], hnode, hgone⟩

/-- What a local ban does to its own key. -/
theorem find_ban (hx : Exact crc slot) (key : Bytes) (expires gen : ℕ) (room : Bool × Bool) :
    (livePut crc bal slot key expires 0 gen room).2.find crc key = slot.find crc key ∨
      ∃ e, (livePut crc bal slot key expires 0 gen room).2.find crc key =
        some ⟨crc key, key, gen, e, ((slot.find crc key).map LiveNode.h).getD 0⟩ := by
  rcases find_livePut hx with ⟨hsame, -⟩ | ⟨e, hfind, -⟩
  · exact Or.inl hsame
  · rw [if_pos rfl] at hfind
    exact Or.inr ⟨e, hfind⟩

end

/-! ### Every run -/

section

/-- `ngx_http_waf_dataset_verify` -/
def datasetVerify (slot : Slot) (epoch seq hash : UInt64) : Applied × Slot :=
  if slot.epoch = 0 ∨ epoch ≠ slot.epoch then (.foreign, slot)
  else if slot.syncing then (.busy, slot)
  else if seq > slot.seq then (.gap, slot)
  else if seq < slot.seq then (.stale, slot)
  else if slot.liveHash ≠ hash then (.diverged, slot)
  else (.applied, if slot.snapBad then { slot with snapBad := false } else slot)

/-- The keeper of a dataset: the hash key of each epoch, and the entries at each place. -/
structure Keeper where
  key : UInt64 → Bytes
  entries : UInt64 → UInt64 → Entries

/-- Bytes of the keeper.  A snapshot has the entries of its place, and a package leads to those of
its place from the ones before.  No entry has the hash zero, which stands for local bans. -/
def Keeper.Sent (keeper : Keeper) (siphash : Bytes → Bytes → UInt64) (type : DsType) (data : Bytes) :
    Prop :=
  ∀ head cur rs, packHead data = some (head, cur) → scan head.type head.flags cur = some rs →
    (∀ r ∈ rs, r.op = 1 → siphash (keeper.key head.epoch) r.key ≠ 0) ∧
      (head.kind = 1 → head.key = keeper.key head.epoch ∧
        keeper.entries head.epoch head.seq = Entries.load type rs) ∧
      (head.kind = 2 → keeper.entries head.epoch head.seq =
        rs.foldl (Entries.apply type) (keeper.entries head.epoch (head.seq - 1)))

/-- A slot with a record of its calls: when they stored entries, and the keys that were banned and
that no record of the keeper has touched since. -/
structure Mirror where
  slot : Slot
  worlds : List World
  bans : List Bytes

/-- The calls that change a dataset. -/
inductive Update
  | snapshot (w : World) (data : Bytes)
  | package (w : World) (data : Bytes)
  | verify (epoch seq hash : UInt64)
  | ban (value : Bytes) (binary : Bool) (ttl now : ℕ) (room : Bool × Bool)

variable (crc : Bytes → ℕ) (bal : Balance LiveNode.id) (siphash : Bytes → Bytes → UInt64)
  (inetAddr : Bytes → Fixed 4) (inet6Addr : Bytes → Option (Fixed 16)) (md5Hex : Bytes → Bytes)
  (limits : DatasetLimits) (conf : DatasetConf) (keeper : Keeper)

def Mirror.step (s : Mirror) : Update → Mirror
  | .snapshot w data =>
    match applySnapshot crc bal siphash w limits s.slot data with
    | none => s
    | some o =>
      if o.code.refuses then { s with slot := o.slot }
      else { slot := o.slot, worlds := w :: s.worlds, bans := [] }
  | .package w data =>
    match applyPackage crc bal siphash w limits s.slot data with
    | none => s
    | some o =>
      if o.code.refuses then { s with slot := o.slot }
      else
        { slot := o.slot
          worlds := w :: s.worlds
          bans := o.passes.flatten.foldl (told s.slot.type) s.bans }
  | .verify epoch seq hash => { s with slot := (datasetVerify s.slot epoch seq hash).2 }
  -- A key counts as banned even when the ban stores nothing.
  | .ban value binary ttl now room =>
    { s with
      slot := (datasetPut crc bal inetAddr inet6Addr md5Hex conf s.slot value binary ttl now room).2
      bans := (banKey inetAddr inet6Addr md5Hex conf value binary).toList ++ s.bans }

/-- The data is the keeper's and there is memory for it, and for a package there is room in the
overlay. -/
def Mirror.Meets (s : Mirror) : Update → Prop
  | .snapshot w data => (∀ i, w.room i = (true, true)) ∧ keeper.Sent siphash s.slot.type data
  | .package w data => (∀ i, w.room i = (true, true)) ∧ keeper.Sent siphash s.slot.type data ∧
      ∀ head cur rs, packHead data = some (head, cur) → scan head.type head.flags cur = some rs →
        s.slot.nodes.length + (adds rs).length ≤ s.slot.liveLimit
  | .verify _ _ _ => True
  | .ban _ _ _ _ _ => True

/-- The overlay is what the keeper had at the place that the slot names. -/
structure Mirror.Sound (s : Mirror) : Prop where
  exact : Exact crc s.slot
  aged : ∀ k ln, s.slot.find crc k = some ln → ln.gen = liveGen s.slot
  mirrored : s.slot.epoch ≠ 0 → s.slot.key = keeper.key s.slot.epoch ∧
    Mirrored crc siphash s.slot.key (liveGen s.slot) s.worlds s.bans (s.slot.find crc)
      (keeper.entries s.slot.epoch s.slot.seq)

variable {crc bal siphash inetAddr inet6Addr md5Hex limits conf keeper} {s : Mirror}

/-- A call that refuses leaves the slot. -/
theorem Mirror.Sound.refused (h : s.Sound crc siphash keeper) {slot : Slot} (hslot : slot = s.slot) :
    Mirror.Sound crc siphash keeper { s with slot := slot } := by
  rw [hslot]
  exact h

theorem Mirror.Sound.snapshot (h : s.Sound crc siphash keeper) {w : World} {data : Bytes}
    (hmeets : s.Meets siphash keeper (.snapshot w data)) :
    (s.step crc bal siphash inetAddr inet6Addr md5Hex limits conf (.snapshot w data)).Sound crc
      siphash keeper := by
  obtain ⟨hroom, hsent⟩ := hmeets
  obtain ⟨o, ho, hsound⟩ := sound_applySnapshot crc bal siphash w limits s.slot data h.exact
  simp only [Mirror.step, ho]
  cases hcode : o.code.refuses with
  | true =>
    rw [if_pos rfl]
    exact h.refused (hsound.refused hcode)
  | false =>
    rw [if_neg Bool.false_ne_true]
    obtain ⟨head, start, rs, hhead, hkind, hscan, hxo, hslot, hfind, -⟩ :=
      snapshot_spec h.exact h.aged hroom ho hcode fun head start rs hhead hscan r hr hop => by
        obtain ⟨hh, hsnap, -⟩ := hsent head start rs hhead hscan
        -- The header's key is the keeper's, since only snapshots are taken here.
        rw [(hsnap ?_).1]
        · exact hh r hr hop
        · obtain ⟨head', start', -, -, -, -, -, -, hhead', hkind', -⟩ := applySnapshot_taken ho hcode
          rw [hhead, Option.some.injEq, Prod.mk.injEq] at hhead'
          rw [hhead'.1]
          exact hkind'
    obtain ⟨-, hsnap, -⟩ := hsent head start rs hhead hscan
    obtain ⟨hkey, hentries⟩ := hsnap hkind
    have hmirror : Mirrored crc siphash head.key (liveGen o.slot) [w] [] (o.slot.find crc)
        (Entries.load s.slot.type rs) := by
      rw [hfind]
      exact mirrored_load s.slot.type rs
    have hepoch : o.slot.epoch = head.epoch := by rw [hslot]
    have hseq : o.slot.seq = head.seq := by rw [hslot]
    have hsecret : o.slot.key = head.key := by rw [hslot]
    refine ⟨hxo, fun k ln => hmirror.aged, fun _ => ⟨?_, ?_⟩⟩
    · show o.slot.key = keeper.key o.slot.epoch
      rw [hsecret, hepoch, hkey]
    · show Mirrored crc siphash o.slot.key _ _ _ _ (keeper.entries o.slot.epoch o.slot.seq)
      rw [hsecret, hepoch, hseq, hentries]
      exact hmirror.mono fun a ha => List.mem_singleton.1 ha ▸ List.mem_cons_self

theorem Mirror.Sound.package (h : s.Sound crc siphash keeper) {w : World} {data : Bytes}
    (hmeets : s.Meets siphash keeper (.package w data)) :
    (s.step crc bal siphash inetAddr inet6Addr md5Hex limits conf (.package w data)).Sound crc siphash
      keeper := by
  obtain ⟨hroom, hsent, hfits⟩ := hmeets
  obtain ⟨o, ho, hsound⟩ := sound_applyPackage crc bal siphash w limits s.slot data
  simp only [Mirror.step, ho]
  cases hcode : o.code.refuses with
  | true =>
    rw [if_pos rfl]
    exact h.refused (hsound.refused hcode)
  | false =>
    rw [if_neg Bool.false_ne_true]
    -- A package is taken only by a slot that has heard of its keeper.
    obtain ⟨-, -, -, -, -, -, -, hepoch, -⟩ := applyPackage_taken ho hcode
    obtain ⟨hkey, hold⟩ := h.mirrored hepoch
    obtain ⟨head, cur, rs, hhead, hkind, hscan, -, hsame, hnext, hxo, hslot, hgen, hpasses, hfind,
      -⟩ :=
      package_spec h.exact hroom ho hcode fun head cur rs hhead hscan => by
        refine ⟨hfits head cur rs hhead hscan, fun hsame r hr hop => ?_⟩
        obtain ⟨hh, -⟩ := hsent head cur rs hhead hscan
        rw [hkey, ← hsame]
        exact hh r hr hop
    obtain ⟨-, -, hpack⟩ := hsent head cur rs hhead hscan
    have hentries : keeper.entries o.slot.epoch o.slot.seq =
        rs.foldl (Entries.apply s.slot.type) (keeper.entries s.slot.epoch s.slot.seq) := by
      rw [hslot]
      show keeper.entries s.slot.epoch head.seq = _
      rw [← hsame, hpack hkind, hnext, UInt64.add_sub_cancel]
    have hmirror : Mirrored crc siphash o.slot.key (liveGen o.slot) (w :: s.worlds)
        (rs.foldl (told s.slot.type) s.bans) (o.slot.find crc)
        (keeper.entries o.slot.epoch o.slot.seq) := by
      have hsecret : o.slot.key = s.slot.key := by rw [hslot]
      rw [hentries, hfind, hgen, hsecret]
      exact (hold.mono (List.subset_cons_self w s.worlds)).records List.mem_cons_self s.slot.type rs
    refine ⟨hxo, fun k ln => hmirror.aged, fun _ => ⟨?_, ?_⟩⟩
    · show o.slot.key = keeper.key o.slot.epoch
      rw [hslot]
      exact hkey
    · rw [hpasses, List.flatten_singleton]
      exact hmirror

theorem Mirror.Sound.verify (h : s.Sound crc siphash keeper) (epoch seq hash : UInt64) :
    (s.step crc bal siphash inetAddr inet6Addr md5Hex limits conf (.verify epoch seq hash)).Sound crc
      siphash keeper := by
  have hcleared : Mirror.Sound crc siphash keeper
      { s with slot := { s.slot with snapBad := false } } := ⟨h.exact, h.aged, h.mirrored⟩
  unfold Mirror.step datasetVerify
  dsimp only
  split_ifs
  · exact h
  · exact h
  · exact h
  · exact h
  · exact h
  · exact hcleared
  · exact h

/-- A put of the node itself. -/
theorem Mirror.Sound.banned (h : s.Sound crc siphash keeper) {key : Bytes} {slot' : Slot}
    (hx' : Exact crc slot') (hframed : Framed s.slot slot') (hgen : liveGen slot' = liveGen s.slot)
    (hother : ∀ k, k ≠ key → slot'.find crc k = s.slot.find crc k)
    (hself : slot'.find crc key = s.slot.find crc key ∨ ∃ e, slot'.find crc key =
      some ⟨crc key, key, liveGen s.slot, e, ((s.slot.find crc key).map LiveNode.h).getD 0⟩) :
    Mirror.Sound crc siphash keeper ⟨slot', s.worlds, key :: s.bans⟩ := by
  unfold Framed at hframed
  have hepoch : slot'.epoch = s.slot.epoch := by rw [hframed]
  have hseq : slot'.seq = s.slot.seq := by rw [hframed]
  have hsecret : slot'.key = s.slot.key := by rw [hframed]
  refine ⟨hx', fun k ln hln => ?_, fun hheard => ?_⟩
  · show ln.gen = liveGen slot'
    rw [hgen]
    by_cases hk : k = key
    · subst hk
      rcases hself with hself | ⟨e, hself⟩
      · exact h.aged k ln (hself.symm.trans hln)
      · have hnode : _ = some ln := hself.symm.trans hln
        rw [← Option.some.inj hnode]
    · exact h.aged k ln ((hother k hk).symm.trans hln)
  · have hheard' : slot'.epoch ≠ 0 := hheard
    rw [hepoch] at hheard'
    obtain ⟨hkey, hold⟩ := h.mirrored hheard'
    have hmirror := hold.ban hother hself
    show slot'.key = keeper.key slot'.epoch ∧ Mirrored crc siphash slot'.key (liveGen slot') s.worlds
      (key :: s.bans) (slot'.find crc) (keeper.entries slot'.epoch slot'.seq)
    rw [hsecret, hepoch, hseq, hgen]
    exact ⟨hkey, hmirror⟩

theorem Mirror.Sound.ban (h : s.Sound crc siphash keeper) (value : Bytes) (binary : Bool)
    (ttl now : ℕ) (room : Bool × Bool) :
    (s.step crc bal siphash inetAddr inet6Addr md5Hex limits conf
      (.ban value binary ttl now room)).Sound crc siphash keeper := by
  unfold Mirror.step datasetPut
  dsimp only
  cases hkey : banKey inetAddr inet6Addr md5Hex conf value binary with
  | none => split_ifs <;> exact h
  | some key =>
    by_cases hempty : value.length = 0 ∨ ttl = 0
    · rw [if_pos hempty]
      exact h.banned h.exact (Framed.refl _) rfl (fun _ _ => rfl) (Or.inl rfl)
    · rw [if_neg hempty]
      exact h.banned (exact_livePut h.exact _ _ _ _ _) (framed_livePut _ _ _ _ _)
        (gen_put _ _ _ _ _ _) (fun k hk => find_livePut_other h.exact hk)
        (find_ban h.exact key (banEnd now ttl) (liveGen s.slot) room)

/-- One call. -/
theorem Mirror.Sound.step (h : s.Sound crc siphash keeper) (u : Update)
    (hmeets : s.Meets siphash keeper u) :
    (s.step crc bal siphash inetAddr inet6Addr md5Hex limits conf u).Sound crc siphash keeper := by
  cases u with
  | snapshot w data => exact h.snapshot hmeets
  | package w data => exact h.package hmeets
  | verify epoch seq hash => exact h.verify epoch seq hash
  | ban value binary ttl now room => exact h.ban value binary ttl now room

/-- A slot that has not heard of its keeper. -/
theorem Mirror.Sound.start {slot : Slot} (hepoch : slot.epoch = 0) :
    Mirror.Sound crc siphash keeper ⟨slot.bare, [], []⟩ where
  exact := rfl
  aged k ln hln := by cases hln
  mirrored h := absurd hepoch h

/-- Every run. -/
theorem Mirror.Sound.run {slot : Slot} (hepoch : slot.epoch = 0) {us : List Update}
    (hus : Along (Mirror.step crc bal siphash inetAddr inet6Addr md5Hex limits conf)
      (Mirror.Meets siphash keeper) ⟨slot.bare, [], []⟩ us) :
    (runFrom (Mirror.step crc bal siphash inetAddr inet6Addr md5Hex limits conf)
      ⟨slot.bare, [], []⟩ us).Sound crc siphash keeper :=
  invariant_run (fun _ u h hmeets => h.step u hmeets) (Mirror.Sound.start hepoch) hus

/-- The clocks of all calls went alike, the node's own by `d` behind the wall clock, and `t` is
later than all of them. -/
def InStep (ws : List World) (d : ℤ) (t : ℕ) : Prop :=
  ∀ w ∈ ws, 1 < w.now ∧ w.now ≤ t ∧ w.nowMs = w.now + d

/-- The ends of entries that the words of both clocks hold. -/
def Entries.Timely (m : Entries) (d : ℤ) : Prop :=
  ∀ k exp, m k = some exp → exp = 0 ∨ (-2 ^ 62 ≤ exp - d ∧ exp - d < 2 ^ 62)

theorem Entries.Timely.apply {m : Entries} {d : ℤ} (hm : m.Timely d) (type : DsType) {r : Record}
    (hr : r.exp = 0 ∨ (-2 ^ 62 ≤ r.exp - d ∧ r.exp - d < 2 ^ 62)) :
    (Entries.apply type m r).Timely d := by
  intro k exp hexp
  rw [Entries.apply] at hexp
  split_ifs at hexp
  · rcases eq_or_ne k r.key with rfl | hne
    · rw [Function.update_self] at hexp
      cases hexp
    · rw [Function.update_of_ne hne] at hexp
      exact hm k exp hexp
  · rcases eq_or_ne k r.key with rfl | hne
    · rw [Function.update_self, Option.some.injEq] at hexp
      exact hexp ▸ hr
    · rw [Function.update_of_ne hne] at hexp
      exact hm k exp hexp
  · exact hm k exp hexp

/-- The ends of a snapshot are those of its records. -/
theorem Entries.timely_load (type : DsType) {rs : List Record} {d : ℤ}
    (hrs : ∀ r ∈ rs, r.exp = 0 ∨ (-2 ^ 62 ≤ r.exp - d ∧ r.exp - d < 2 ^ 62)) :
    (Entries.load type rs).Timely d :=
  List.foldlRecOn (motive := fun m => Entries.Timely m d) _ _ (fun _ _ h => by cases h)
    fun _ hm r hr => hm.apply type (hrs r (List.mem_of_mem_filter hr))

/-- An entry that was taken over answers as the keeper's does. -/
theorem Mirror.Sound.answers (h : s.Sound crc siphash keeper) (hheard : s.slot.epoch ≠ 0) {d : ℤ}
    {t : ℕ} (hd : -2 ^ 62 ≤ d ∧ d < 2 ^ 62) (ht : t < 2 ^ 62) (hclock : InStep s.worlds d t)
    (hends : (keeper.entries s.slot.epoch s.slot.seq).Timely d) {key : Bytes} (hkey : key ∉ s.bans) :
    (liveHit crc s.slot key t = true → ∃ exp, keeper.entries s.slot.epoch s.slot.seq key = some exp ∧
        (exp = 0 ∨ t + d ≤ exp)) ∧
      ∀ exp, keeper.entries s.slot.epoch s.slot.seq key = some exp → exp = 0 ∨ t + d < exp →
        liveHit crc s.slot key t = true := by
  obtain ⟨-, hmirror⟩ := h.mirrored hheard
  have hentry : ∀ exp, keeper.entries s.slot.epoch s.slot.seq key = some exp → ∃ w ∈ s.worlds,
      (liveHit crc s.slot key t = true ↔
        exp = 0 ∨ (0 < exp - w.nowMs ∧ ((t - w.now : ℕ) : ℤ) ≤ exp - w.nowMs)) := by
    intro exp hexp
    obtain ⟨e, hnode, he⟩ := hmirror.entry key exp hexp
    obtain ⟨w, hw, rfl⟩ := he hkey
    obtain ⟨hone, hle, hwall⟩ := hclock w hw
    have hpos : key.length ≠ 0 := (h.exact.valid hnode).1.1
    have hfits : ExpiryFits w exp := by
      rcases hends key exp hexp with h0 | ⟨hlow, hhigh⟩
      · exact Or.inl h0
      · refine Or.inr ⟨?_, ?_, fun _ => ?_, fun _ => ?_⟩ <;> omega
    have hbounds : -2 ^ 63 ≤ exp ∧ exp < 2 ^ 63 := by
      rcases hends key exp hexp with rfl | ⟨hlow, hhigh⟩
      · norm_num
      · omega
    have hkeeps : KeepsExpiry crc s.slot key w exp :=
      (keepsExpiry_iff hpos (by rw [hnode]; rfl) (by omega) (by omega) hbounds).2 hfits
    -- `t` is `t - w.now` after the call that took the entry over.
    have hhit := hkeeps.1 (t - w.now) (by omega)
    rw [Nat.add_sub_cancel' hle, Nat.mod_eq_of_lt (by omega)] at hhit
    exact ⟨w, hw, hhit⟩
  constructor
  · intro hhit
    cases hexp : keeper.entries s.slot.epoch s.slot.seq key with
    | none =>
      rcases hmirror.other key hexp with hnone | ⟨hban, -⟩
      · obtain ⟨-, ln, hln, -⟩ := (liveHit_iff s.slot key t).1 hhit
        rw [hnone] at hln
        cases hln
      · exact absurd hban hkey
    | some exp =>
      obtain ⟨w, hw, hiff⟩ := hentry exp hexp
      obtain ⟨-, hle, hwall⟩ := hclock w hw
      refine ⟨exp, rfl, (hiff.1 hhit).imp_right fun hleft => ?_⟩
      omega
  · intro exp hexp hlasts
    obtain ⟨w, hw, hiff⟩ := hentry exp hexp
    obtain ⟨-, hle, hwall⟩ := hclock w hw
    refine hiff.2 (hlasts.imp_right fun hlater => ?_)
    omega

end

/-- **The mirror follows its keeper.**  A node hears of a dataset by snapshots and packages that may
be lost, come twice, too late or out of order, verifies them, and bans keys of its own, in any order.
As long as there is memory and room for what a package adds, and no key of the keeper has the hash
zero, the overlay is at every moment what the keeper had at the place that the slot names: each
entry under the keeper's hash key with an end that a call took over, and nothing else, but for the
keys with a ban that no record has touched since; and its hash is that of the keeper's entries,
whatever was banned. -/
theorem mirror_follows (crc : Bytes → ℕ) (bal : Balance LiveNode.id)
    (siphash : Bytes → Bytes → UInt64) (inetAddr : Bytes → Fixed 4)
    (inet6Addr : Bytes → Option (Fixed 16)) (md5Hex : Bytes → Bytes) (limits : DatasetLimits)
    (conf : DatasetConf) (keeper : Keeper) (slot : Slot) (hepoch : slot.epoch = 0) (us : List Update)
    (hus : Along (Mirror.step crc bal siphash inetAddr inet6Addr md5Hex limits conf)
      (Mirror.Meets siphash keeper) ⟨slot.bare, [], []⟩ us) (s : Mirror)
    (hs : runFrom (Mirror.step crc bal siphash inetAddr inet6Addr md5Hex limits conf)
      ⟨slot.bare, [], []⟩ us = s) (hheard : s.slot.epoch ≠ 0) :
    s.slot.key = keeper.key s.slot.epoch ∧
      Mirrored crc siphash s.slot.key (liveGen s.slot) s.worlds s.bans (s.slot.find crc)
        (keeper.entries s.slot.epoch s.slot.seq) ∧
      ∀ keys : List Bytes, keys.Nodup →
        (∀ k, k ∈ keys ↔ (keeper.entries s.slot.epoch s.slot.seq k).isSome = true) →
        s.slot.liveHash = keysHash siphash s.slot.key keys := by
  have hsound : s.Sound crc siphash keeper := by
    rw [← hs]
    exact Mirror.Sound.run hepoch hus
  obtain ⟨hkey, hmirror⟩ := hsound.mirrored hheard
  exact ⟨hkey, hmirror, fun keys hnodup hkeys => hmirror.hash hsound.exact hnodup hkeys⟩

/-- A keeper that has `0x62` and `0x63` at sequence number 7, and `0x61` in place of `0x62` from then
on. -/
def oneKeeper : Keeper where
  key _ := List.replicate 16 0
  entries _ seq :=
    if seq = 7 then Entries.load .string [⟨1, [0x62], 0⟩, ⟨1, [0x63], 5000⟩]
    else [⟨1, [0x61], 5000⟩, ⟨2, [0x62], 0⟩].foldl (Entries.apply .string)
      (Entries.load .string [⟨1, [0x62], 0⟩, ⟨1, [0x63], 5000⟩])

theorem oneKeeper_sent : oneKeeper.Sent headHash .string oneSnapshot ∧
    oneKeeper.Sent headHash .string onePackage := by
  constructor
  · intro head cur rs hhead hscan
    rw [packHead_oneSnapshot, Option.some.injEq, Prod.mk.injEq] at hhead
    obtain ⟨rfl, rfl⟩ := hhead
    rw [scan_oneSnapshot, Option.some.injEq] at hscan
    subst hscan
    exact ⟨by decide, fun _ => ⟨rfl, rfl⟩, fun h => absurd h (by decide)⟩
  · intro head cur rs hhead hscan
    rw [packHead_onePackage, Option.some.injEq, Prod.mk.injEq] at hhead
    obtain ⟨rfl, rfl⟩ := hhead
    rw [scan_onePackage, Option.some.injEq] at hscan
    subst hscan
    exact ⟨by decide, fun h => absurd h (by decide), fun _ => rfl⟩

/-- The calls of a dataset of strings. -/
def stringStep : Mirror → Update → Mirror :=
  Mirror.step Rate.crc32 (Balance.plain LiveNode.id) headHash (fun _ => inaddrNone)
    (fun _ => none) id ⟨.string, 10⟩ ⟨.string, false⟩

/-- A node of that dataset at first. -/
def stringStart : Mirror := ⟨({ stringSlot with epoch := 0 } : Slot).bare, [], []⟩

/-- A snapshot, a local ban of `0x64` and a package. -/
def threeUpdates : List Update :=
  [.snapshot calmWorld oneSnapshot, .ban [0x64] false 60 1000 (true, true),
    .package calmWorld onePackage]

theorem stringStep_banned :
    (stringStep (stringStep stringStart (.snapshot calmWorld oneSnapshot))
      (.ban [0x64] false 60 1000 (true, true))).slot.type = .string ∧
    (stringStep (stringStep stringStart (.snapshot calmWorld oneSnapshot))
      (.ban [0x64] false 60 1000 (true, true))).slot.nodes.length = 3 ∧
    (stringStep (stringStep stringStart (.snapshot calmWorld oneSnapshot))
      (.ban [0x64] false 60 1000 (true, true))).slot.liveLimit = 10000 := by
  decide +kernel

theorem threeUpdates_along :
    Along stringStep (Mirror.Meets headHash oneKeeper) stringStart threeUpdates := by
  obtain ⟨hsnap, hpack⟩ := oneKeeper_sent
  obtain ⟨htype, hlen, hlimit⟩ := stringStep_banned
  have hroom : ∀ i, calmWorld.room i = (true, true) := fun _ => rfl
  refine ⟨⟨hroom, hsnap⟩, trivial, ⟨hroom, ?_, fun head cur rs hhead hscan => ?_⟩, trivial⟩
  · rw [htype]
    exact hpack
  · rw [packHead_onePackage, Option.some.injEq, Prod.mk.injEq] at hhead
    obtain ⟨rfl, rfl⟩ := hhead
    rw [scan_onePackage, Option.some.injEq] at hscan
    subst hscan
    rw [hlen, hlimit]
    decide

theorem threeUpdates_place :
    (runFrom stringStep stringStart threeUpdates).slot.epoch = 1 ∧
      (runFrom stringStep stringStart threeUpdates).slot.seq = 8 ∧
      (runFrom stringStep stringStart threeUpdates).bans = [[0x64]] ∧
      (runFrom stringStep stringStart threeUpdates).worlds.map (fun w => (w.now, w.nowMs)) =
        [(1000, 0), (1000, 0)] := by
  decide +kernel

theorem clock_of_mem {ws : List World} {now : ℕ} {nowMs : ℤ}
    (h : ws.map (fun w => (w.now, w.nowMs)) = [(now, nowMs), (now, nowMs)]) {w : World}
    (hw : w ∈ ws) : w.now = now ∧ w.nowMs = nowMs := by
  have hmem : (w.now, w.nowMs) ∈ ws.map fun w => (w.now, w.nowMs) := List.mem_map_of_mem hw
  rw [h, List.mem_cons, List.mem_singleton, or_self, Prod.mk.injEq] at hmem
  exact hmem

theorem oneKeeper_entries : oneKeeper.entries 1 8 [0x61] = some 5000 ∧
    oneKeeper.entries 1 8 [0x62] = none ∧ oneKeeper.entries 1 8 [0x63] = some 5000 := by
  decide +kernel

theorem oneKeeper_timely : (oneKeeper.entries 1 8).Timely (-1000) := by
  have hload : (Entries.load .string [⟨1, [0x62], 0⟩, ⟨1, [0x63], 5000⟩]).Timely (-1000) := by
    refine Entries.timely_load .string fun r hr => ?_
    rw [List.mem_cons, List.mem_singleton] at hr
    rcases hr with rfl | rfl
    · exact Or.inl rfl
    · exact Or.inr (by norm_num)
  have hlatest : oneKeeper.entries 1 8 = Entries.apply .string (Entries.apply .string
      (Entries.load .string [⟨1, [0x62], 0⟩, ⟨1, [0x63], 5000⟩]) ⟨1, [0x61], 5000⟩)
        ⟨2, [0x62], 0⟩ := rfl
  rw [hlatest]
  exact (hload.apply .string (Or.inr (by norm_num))).apply .string (Or.inl rfl)

/-- After the package the overlay has `0x61` and `0x63` with their ends, and `0x62` is gone. -/
theorem mirror_follows_three :
    ∃ s : Mirror, runFrom stringStep stringStart threeUpdates = s ∧ s.slot.seq = 8 ∧
      s.slot.find Rate.crc32 [0x61] = some ⟨Rate.crc32 [0x61], [0x61], liveGen s.slot, 6000, 0x61⟩ ∧
      s.slot.find Rate.crc32 [0x62] = none ∧
      s.slot.find Rate.crc32 [0x63] =
        some ⟨Rate.crc32 [0x63], [0x63], liveGen s.slot, 6000, 0x63⟩ := by
  obtain ⟨hepoch, hseq, hbans, hnows⟩ := threeUpdates_place
  generalize hrun : runFrom stringStep stringStart threeUpdates = s at hepoch hseq hbans hnows ⊢
  obtain ⟨-, hmirror, -⟩ := mirror_follows Rate.crc32 (Balance.plain LiveNode.id) headHash
    (fun _ => inaddrNone) (fun _ => none) id ⟨.string, 10⟩ ⟨.string, false⟩ oneKeeper
    { stringSlot with epoch := 0 } rfl _ threeUpdates_along s hrun (by rw [hepoch]; decide)
  rw [hepoch, hseq, hbans] at hmirror
  have hend : ∀ w ∈ s.worlds, dsExpires w 5000 = 6000 := by
    intro w hw
    obtain ⟨hnow, hwall⟩ := clock_of_mem hnows hw
    unfold dsExpires
    rw [hnow, hwall]
    decide +kernel
  obtain ⟨e, hnode, he⟩ := hmirror.entry [0x61] 5000 oneKeeper_entries.1
  obtain ⟨e', hnode', he'⟩ := hmirror.entry [0x63] 5000 oneKeeper_entries.2.2
  obtain ⟨w, hw, rfl⟩ := he (by decide)
  obtain ⟨w', hw', rfl⟩ := he' (by decide)
  rw [hend w hw] at hnode
  rw [hend w' hw'] at hnode'
  have hgone := (hmirror.other [0x62] oneKeeper_entries.2.1).resolve_right fun h =>
    absurd h.1 (by decide)
  exact ⟨s, rfl, hseq, hnode, hgone, hnode'⟩

/-- **A lookup on the node is one in the keeper's entries.**  In every run as above, with clocks that
go alike and ends that fit their words: a key without a ban of the node is a hit before its end and is
no hit after it, as the keeper had it at the place that the slot names. -/
theorem mirror_answers (crc : Bytes → ℕ) (bal : Balance LiveNode.id)
    (siphash : Bytes → Bytes → UInt64) (inetAddr : Bytes → Fixed 4)
    (inet6Addr : Bytes → Option (Fixed 16)) (md5Hex : Bytes → Bytes) (limits : DatasetLimits)
    (conf : DatasetConf) (keeper : Keeper) (slot : Slot) (hepoch : slot.epoch = 0) (us : List Update)
    (hus : Along (Mirror.step crc bal siphash inetAddr inet6Addr md5Hex limits conf)
      (Mirror.Meets siphash keeper) ⟨slot.bare, [], []⟩ us) (s : Mirror)
    (hs : runFrom (Mirror.step crc bal siphash inetAddr inet6Addr md5Hex limits conf)
      ⟨slot.bare, [], []⟩ us = s) (hheard : s.slot.epoch ≠ 0) (d : ℤ) (t : ℕ)
    (hd : -2 ^ 62 ≤ d ∧ d < 2 ^ 62) (ht : t < 2 ^ 62) (hclock : InStep s.worlds d t)
    (hends : (keeper.entries s.slot.epoch s.slot.seq).Timely d) (key : Bytes) (hkey : key ∉ s.bans) :
    (liveHit crc s.slot key t = true → ∃ exp, keeper.entries s.slot.epoch s.slot.seq key = some exp ∧
        (exp = 0 ∨ t + d ≤ exp)) ∧
      ∀ exp, keeper.entries s.slot.epoch s.slot.seq key = some exp → exp = 0 ∨ t + d < exp →
        liveHit crc s.slot key t = true := by
  have hsound : s.Sound crc siphash keeper := by
    rw [← hs]
    exact Mirror.Sound.run hepoch hus
  exact hsound.answers hheard hd ht hclock hends hkey

/-- An entry is a hit a second later, and none after its end. -/
theorem mirror_answers_three :
    liveHit Rate.crc32 (runFrom stringStep stringStart threeUpdates).slot [0x61] 2000 = true ∧
      liveHit Rate.crc32 (runFrom stringStep stringStart threeUpdates).slot [0x61] 7000 = false := by
  obtain ⟨hepoch, hseq, hbans, hnows⟩ := threeUpdates_place
  generalize hrun : runFrom stringStep stringStart threeUpdates = s at hepoch hseq hbans hnows ⊢
  have hclock : ∀ t, 1000 ≤ t → InStep s.worlds (-1000) t := by
    intro t ht w hw
    obtain ⟨hnow, hwall⟩ := clock_of_mem hnows hw
    omega
  have hanswers (t : ℕ) (ht : 1000 ≤ t ∧ t < 2 ^ 62) := mirror_answers Rate.crc32
    (Balance.plain LiveNode.id) headHash (fun _ => inaddrNone) (fun _ => none) id ⟨.string, 10⟩
    ⟨.string, false⟩ oneKeeper { stringSlot with epoch := 0 } rfl _ threeUpdates_along s hrun
    (by rw [hepoch]; decide) (-1000) t (by norm_num) ht.2 (hclock t ht.1)
    (by rw [hepoch, hseq]; exact oneKeeper_timely) [0x61] (by rw [hbans]; decide)
  rw [hepoch, hseq] at hanswers
  constructor
  · exact (hanswers 2000 (by norm_num)).2 5000 oneKeeper_entries.1 (Or.inr (by norm_num))
  · rw [Bool.eq_false_iff]
    intro hhit
    obtain ⟨exp, hexp, hleft⟩ := (hanswers 7000 (by norm_num)).1 hhit
    rw [oneKeeper_entries.1, Option.some.injEq] at hexp
    omega

end Dataset
