import PlacitumNode.Lib.SearchTree
import PlacitumNode.Rate.Account

/-!
# How the rate counters are stored

A counter is a node of a red-black tree and of a queue at once, and its bytes are charged to an
allowance.  The tree is ordered by the hash of a counter, its rule's signature and its key; the queue
by the time of the last use.  `Rate.Account` keeps the queue and the allowance only; here the tree
stands beside them, with a log of the counters that were inserted and freed.

* `Store`: tree, queue, allowance and log;
* `storeFree`, `storeExpire`, `storeInsert`, `storeAccount`: the functions of the source;
* `Kept`: both structures hold the same counters, which are distinct, charged, and those of the log;
* `storeAccount_refines`: forgetting the tree and the log gives `rateAccount`;
* `rate_storage_exact`: any sequence of operations keeps the store.

What nginx's red-black tree does besides the insertion itself is a parameter.
-/

namespace Rate

open Machine Octets Run SearchTree

/-- A key that `ngx_http_waf_rate_key` lets through: at most `NGX_HTTP_WAF_RATE_KEY_MAX` bytes, so
that the length of a counter fits its one byte. -/
abbrev RateKey := {key : Bytes // key.length ≤ 255}

/-- What the tree is ordered by: the hash, the signature and the key. -/
def treeKey (sig : ℕ) (key : Bytes) : ℕ × ℕ × Bytes := (crc32 key ^^^ sig, sig, key)

def Node.id (rn : Node) : ℕ × ℕ × Bytes := treeKey rn.sig rn.key

abbrev rateCmp : ℕ × ℕ × Bytes → ℕ × ℕ × Bytes → Ordering := (@lexOrd _ _ _ lexOrd).compare

/-- What happened to a counter. -/
inductive Event
  | inserted (sig : ℕ) (key : Bytes)
  | freed (sig : ℕ) (key : Bytes)
  deriving DecidableEq

/-- The counters in shared memory; the newest event of the log first. -/
structure Store where
  tree : Bst Node
  lru : List Node
  rateBytes : ℕ
  log : List Event

def Store.init : Store := ⟨.nil, [], 0, []⟩

/-- A counter was inserted and not freed since. -/
def held (sig : ℕ) (key : Bytes) : List Event → Bool
  | [] => false
  | .inserted s k :: l => if s = sig ∧ k = key then true else held sig key l
  | .freed s k :: l => if s = sig ∧ k = key then false else held sig key l

section

variable (bal : Balance Node.id) (scf : ShmConf)

/-- `ngx_http_waf_rate_lookup` -/
def storeLookup (s : Store) (sig : ℕ) (key : Bytes) : Option Node :=
  s.tree.search rateCmp Node.id (treeKey sig key)

/-- `ngx_http_waf_rate_free` -/
def storeFree (s : Store) (rn : Node) : Store :=
  let charge := rateCharge rn.key.length
  { tree := bal.delete rn.id s.tree
    lru := s.lru.filter fun n => n.id ≠ rn.id
    rateBytes := if s.rateBytes > charge then s.rateBytes - charge else 0
    log := .freed rn.sig rn.key :: s.log }

/-- The two rounds of `ngx_http_waf_rate_expire`. -/
def storeExpireLoop (now : ℕ) : ℕ → Bool → Store → Store
  | 0, _, s => s
  | n + 1, force, s =>
    match s.lru.getLast? with
    | none => s
    | some rn =>
      if !force && decide (0 < signed rn.excess - perMille rn.rate (rateElapsed now rn.last)) then s
      else storeExpireLoop now n false (storeFree bal s rn)

def storeExpire (now : ℕ) (s : Store) (force : Bool) : Store := storeExpireLoop bal now 2 force s

/-- The evictions of `ngx_http_waf_rate_insert`. -/
def storeEvictLoop (now charge : ℕ) : ℕ → Store → Store
  | 0, s => s
  | n + 1, s =>
    if s.rateBytes + charge > scf.rateMax ∧ s.lru ≠ [] then
      storeEvictLoop now charge n (storeExpire bal now s true)
    else s

/-- A new counter, in the tree and at the head of the queue. -/
def Store.add (s : Store) (rn : Node) : Store where
  tree := bal.fix (s.tree.insert rateCmp Node.id rn)
  lru := rn :: s.lru
  rateBytes := s.rateBytes + rateCharge rn.key.length
  log := .inserted rn.sig rn.key :: s.log

/-- `ngx_http_waf_rate_insert`.  `slab` are the answers of the two slab allocations. -/
def storeInsert (s : Store) (rule : Rule) (key : Bytes) (excess now : ℕ) (slab : Bool × Bool) :
    Store :=
  let charge := rateCharge key.length
  let node : Node := ⟨rule.sig, key, rule.rate, excess, now⟩
  let s := storeEvictLoop bal scf now charge 16 (storeExpire bal now s false)
  if s.rateBytes + charge ≤ scf.rateMax then
    if slab.1 then s.add bal node
    else
      let s := storeExpire bal now s true
      if slab.2 then s.add bal node else s
  else s

/-- A counter moves to the head of the queue and is changed in place. -/
def Store.touch (s : Store) (rn : Node) (f : Node → Node) : Store :=
  { s with
    tree := s.tree.modify Node.id rn.id f
    lru := f rn :: s.lru.filter fun n => n.id ≠ rn.id }

/-- `ngx_http_waf_rate_account`: the answer, the excess reported to the caller, the store. -/
def storeAccount (s : Store) (rule : Rule) (key : Bytes) (mode : Mode) (now : ℕ)
    (slab : Bool × Bool) : Answer × ℕ × Store :=
  match storeLookup s rule.sig key with
  | none =>
    (.ok, 0,
      if mode = .peek then s
      else storeInsert bal scf s rule key (if mode = .debt then 1000 else 0) now slab)
  | some rn =>
    let value := levelAt rule rn mode now
    let last := if rateElapsed now rn.last = 0 then rn.last else now
    if value ≤ signed rule.burst then
      (.ok, value.toNat,
        s.touch rn fun rn => if mode = .peek then rn else { rn with excess := value.toNat, last := last })
    else
      let limit := signed (rule.burst + rule.rate)
      (.declined, value.toNat,
        s.touch rn fun rn =>
          if mode = .debt then { rn with excess := (min value limit % 2 ^ 64).toNat, last := last }
          else rn)

/-! ### Sequences of operations -/

/-- A call of `rate_account`, or of one of the two functions below it: a counter is inserted when
there is none for the rule and the key. -/
inductive Op
  | account (rule : Rule) (key : RateKey) (mode : Mode) (now : ℕ) (slab : Bool × Bool)
  | insert (rule : Rule) (key : RateKey) (excess now : ℕ) (slab : Bool × Bool)
  | expire (now : ℕ) (force : Bool)

def storeStep (s : Store) : Op → Store
  | .account rule key mode now slab => (storeAccount bal scf s rule key.1 mode now slab).2.2
  | .insert rule key excess now slab =>
    if (storeLookup s rule.sig key.1).isNone then storeInsert bal scf s rule key.1 excess now slab
    else s
  | .expire now force => storeExpire bal now s force

end

/-! ### The invariant -/

/-- The bytes charged for the counters of a list. -/
def charged (l : List Node) : ℕ := (l.map fun rn => rateCharge rn.key.length).sum

/-- Tree and queue hold the same counters, no two of them for one rule and key; the bytes are those
charged for them, within the allowance; and they are the counters of the log. -/
structure Kept (scf : ShmConf) (s : Store) : Prop where
  ordered : Bst.Sorted rateCmp Node.id s.tree
  same : s.tree.toList.Perm s.lru
  bytes : s.rateBytes = charged s.lru
  within : s.rateBytes ≤ scf.rateMax
  logged : ∀ sig key, (∃ rn ∈ s.lru, rn.sig = sig ∧ rn.key = key) ↔ held sig key s.log = true

section

variable {bal : Balance Node.id} {scf : ShmConf} {s : Store} {rn : Node}

theorem id_eq_iff {a b : Node} : a.id = b.id ↔ a.sig = b.sig ∧ a.key = b.key := by
  constructor
  · intro h
    simp only [Node.id, treeKey, Prod.mk.injEq] at h
    exact h.2
  · rintro ⟨h1, h2⟩
    rw [Node.id, Node.id, h1, h2]

theorem Kept.nodup (hk : Kept scf s) : (s.lru.map Node.id).Nodup :=
  (hk.same.map Node.id).nodup_iff.1 (Sorted.nodup hk.ordered)

theorem charged_perm {l m : List Node} (h : l.Perm m) : charged l = charged m :=
  (h.map fun rn : Node => rateCharge rn.key.length).sum_eq

@[simp] theorem charged_cons (rn : Node) (l : List Node) :
    charged (rn :: l) = rateCharge rn.key.length + charged l := by
  simp [charged]

/-- A counter of the queue, and the others. -/
theorem Kept.split (hk : Kept scf s) (hrn : rn ∈ s.lru) :
    s.lru.Perm (rn :: s.lru.filter fun n => n.id ≠ rn.id) := by
  have htree := hk.same.mem_iff.2 hrn
  have hp := filter_perm hk.ordered htree
  exact hk.same.symm.trans (hp.trans ((hk.same.filter _).cons rn))

theorem kept_init (scf : ShmConf) : Kept scf Store.init where
  ordered := List.Pairwise.nil
  same := .refl _
  bytes := rfl
  within := Nat.zero_le _
  logged sig key := by simp [Store.init, held]

theorem Kept.free (hk : Kept scf s) (hrn : rn ∈ s.lru) : Kept scf (storeFree bal s rn) := by
  have hsplit := hk.split hrn
  have hsum : s.rateBytes = rateCharge rn.key.length +
      charged (s.lru.filter fun n => n.id ≠ rn.id) := by
    rw [hk.bytes, charged_perm hsplit, charged_cons]
  have hbytes : (storeFree bal s rn).rateBytes = charged (s.lru.filter fun n => n.id ≠ rn.id) := by
    simp only [storeFree]
    split <;> omega
  refine ⟨Sorted.delete bal hk.ordered, ?_, hbytes, ?_, fun sig key => ?_⟩
  · show (bal.delete rn.id s.tree).toList.Perm (s.lru.filter fun n => n.id ≠ rn.id)
    rw [bal.toList_delete]
    exact hk.same.filter _
  · have := hk.within
    omega
  · simp only [storeFree, held, List.mem_filter, decide_eq_true_eq]
    split
    · next heq =>
      refine iff_of_false ?_ (by simp)
      rintro ⟨n, ⟨-, hne⟩, h1, h2⟩
      exact hne (id_eq_iff.2 ⟨h1.trans heq.1.symm, h2.trans heq.2.symm⟩)
    · next hne =>
      rw [← hk.logged]
      constructor
      · rintro ⟨n, ⟨hn, -⟩, h⟩
        exact ⟨n, hn, h⟩
      · rintro ⟨n, hn, h1, h2⟩
        refine ⟨n, ⟨hn, fun hid => hne ?_⟩, h1, h2⟩
        obtain ⟨g1, g2⟩ := id_eq_iff.1 hid
        exact ⟨g1.symm.trans h1, g2.symm.trans h2⟩

theorem Kept.add (hk : Kept scf s) (hnew : ∀ n ∈ s.lru, n.id ≠ rn.id)
    (hroom : s.rateBytes + rateCharge rn.key.length ≤ scf.rateMax) : Kept scf (s.add bal rn) := by
  have hfresh : ∀ n ∈ s.tree.toList, n.id ≠ rn.id := fun n hn => hnew n (hk.same.mem_iff.1 hn)
  refine ⟨Sorted.fix bal (Sorted.insert hk.ordered hfresh), ?_, ?_, hroom, fun sig key => ?_⟩
  · show (bal.fix (s.tree.insert rateCmp Node.id rn)).toList.Perm (rn :: s.lru)
    rw [bal.toList_fix]
    exact (insert_perm rateCmp Node.id rn s.tree).trans (hk.same.cons rn)
  · show s.rateBytes + rateCharge rn.key.length = charged (rn :: s.lru)
    rw [charged_cons, hk.bytes, Nat.add_comm]
  · simp only [Store.add, held, List.mem_cons, exists_eq_or_imp]
    split
    · next heq => exact iff_of_true (.inl heq) rfl
    · next hne =>
      rw [← hk.logged, or_iff_right hne]

theorem Kept.touch (hk : Kept scf s) (hrn : rn ∈ s.lru) {f : Node → Node}
    (hf : ∀ n, (f n).sig = n.sig ∧ (f n).key = n.key) : Kept scf (s.touch rn f) := by
  have hid : ∀ n, (f n).id = n.id := fun n => id_eq_iff.2 (hf n)
  have htree := hk.same.mem_iff.2 hrn
  have hsplit := hk.split hrn
  refine ⟨Sorted.modify hk.ordered hid, ?_, ?_, hk.within, fun sig key => ?_⟩
  · exact (modify_perm hk.ordered htree).trans ((hk.same.filter _).cons (f rn))
  · show s.rateBytes = charged (f rn :: s.lru.filter fun n => n.id ≠ rn.id)
    rw [hk.bytes, charged_perm hsplit, charged_cons, charged_cons, (hf rn).2]
  · rw [show (s.touch rn f).log = s.log from rfl, ← hk.logged]
    simp only [Store.touch, List.mem_cons, exists_eq_or_imp, (hf rn).1, (hf rn).2]
    simp only [hsplit.mem_iff, List.mem_cons, exists_eq_or_imp]

/-! ### The lookup -/

/-- **The tree finds what the queue holds.** -/
theorem storeLookup_eq_some (hk : Kept scf s) {sig : ℕ} {key : Bytes} :
    storeLookup s sig key = some rn ↔ rn ∈ s.lru ∧ rn.sig = sig ∧ rn.key = key := by
  unfold storeLookup
  rw [search_eq_some hk.ordered, hk.same.mem_iff]
  have hid : rn.id = treeKey sig key ↔ rn.sig = sig ∧ rn.key = key :=
    id_eq_iff (b := ⟨sig, key, 0, 0, 0⟩)
  rw [hid]

theorem storeLookup_eq_none (hk : Kept scf s) {sig : ℕ} {key : Bytes} :
    storeLookup s sig key = none ↔ ∀ n ∈ s.lru, n.id ≠ treeKey sig key := by
  unfold storeLookup
  rw [search_eq_none hk.ordered]
  simp only [hk.same.mem_iff]

/-! ### The operations keep the store -/

/-- What eviction may do: the store is kept, its queue loses counters only, at most `n`. -/
structure Evicts (scf : ShmConf) (n : ℕ) (s t : Store) : Prop where
  kept : Kept scf t
  fewer : t.lru ⊆ s.lru
  bytes_le : t.rateBytes ≤ s.rateBytes
  logged : t.log.length ≤ s.log.length + n

theorem Evicts.refl (hk : Kept scf s) (n : ℕ) : Evicts scf n s s :=
  ⟨hk, List.Subset.refl _, le_rfl, Nat.le_add_right _ _⟩

theorem Evicts.trans {t u : Store} {m n : ℕ} (h : Evicts scf m s t) (h' : Evicts scf n t u) :
    Evicts scf (m + n) s u :=
  ⟨h'.kept, List.Subset.trans h'.fewer h.fewer, h'.bytes_le.trans h.bytes_le, by
    have := h.logged
    have := h'.logged
    omega⟩

theorem evicts_free (hk : Kept scf s) (hrn : rn ∈ s.lru) : Evicts scf 1 s (storeFree bal s rn) := by
  refine ⟨hk.free hrn, List.filter_subset_self _, ?_, by simp [storeFree]⟩
  simp only [storeFree]
  split <;> omega

theorem evicts_expireLoop (hk : Kept scf s) (now n : ℕ) (force : Bool) :
    Evicts scf n s (storeExpireLoop bal now n force s) := by
  induction n generalizing s force with
  | zero => exact .refl hk 0
  | succ n ih =>
    simp only [storeExpireLoop]
    cases hlast : s.lru.getLast? with
    | none => exact .refl hk _
    | some rn =>
      simp only
      split
      · exact .refl hk _
      · have hfree : Evicts scf 1 s (storeFree bal s rn) :=
          evicts_free hk (List.mem_of_getLast? hlast)
        rw [Nat.add_comm n 1]
        exact hfree.trans (ih hfree.kept false)

theorem evicts_expire (hk : Kept scf s) (now : ℕ) (force : Bool) :
    Evicts scf 2 s (storeExpire bal now s force) := evicts_expireLoop hk now 2 force

theorem evicts_evictLoop (hk : Kept scf s) (now charge n : ℕ) :
    Evicts scf (n * 2) s (storeEvictLoop bal scf now charge n s) := by
  induction n generalizing s with
  | zero => exact .refl hk 0
  | succ n ih =>
    simp only [storeEvictLoop]
    split
    · have h1 : Evicts scf 2 s (storeExpire bal now s true) := evicts_expire hk now true
      rw [Nat.succ_mul, Nat.add_comm]
      exact h1.trans (ih h1.kept)
    · exact .refl hk _

/-- An insertion evicts at most 36 counters and stores at most one. -/
theorem kept_storeInsert (hk : Kept scf s) {rule : Rule} {key : Bytes}
    (hnew : storeLookup s rule.sig key = none) (excess now : ℕ) (slab : Bool × Bool) :
    Kept scf (storeInsert bal scf s rule key excess now slab) ∧
      (storeInsert bal scf s rule key excess now slab).log.length ≤ s.log.length + 37 := by
  rw [storeLookup_eq_none hk] at hnew
  have h1 : Evicts scf 2 s (storeExpire bal now s false) := evicts_expire hk now false
  have hevict : Evicts scf 32 _ (storeEvictLoop bal scf now (rateCharge key.length) 16 _) :=
    evicts_evictLoop h1.kept now (rateCharge key.length) 16
  have h2 := h1.trans hevict
  unfold storeInsert
  simp only
  generalize storeEvictLoop bal scf now (rateCharge key.length) 16 (storeExpire bal now s false) = t
    at h2 ⊢
  have hadd {u : Store} (hu : Evicts scf 36 s u)
      (hroom : u.rateBytes + rateCharge key.length ≤ scf.rateMax) :
      Kept scf (u.add bal ⟨rule.sig, key, rule.rate, excess, now⟩) ∧
        (u.add bal ⟨rule.sig, key, rule.rate, excess, now⟩).log.length ≤ s.log.length + 37 := by
    refine ⟨hu.kept.add (fun n hn => hnew n (hu.fewer hn)) hroom, ?_⟩
    have := hu.logged
    simp only [Store.add, List.length_cons]
    omega
  split
  · next hroom =>
    split
    · exact hadd (h2.trans (.refl h2.kept 2)) hroom
    · have hforce : Evicts scf 2 t (storeExpire bal now t true) := evicts_expire h2.kept now true
      have hless := hforce.bytes_le
      have h3 := h2.trans hforce
      split
      · exact hadd h3 (by omega)
      · exact ⟨h3.kept, by have := h3.logged; omega⟩
  · exact ⟨h2.kept, by have := h2.logged; omega⟩

theorem kept_storeAccount (hk : Kept scf s) (rule : Rule) (key : Bytes) (mode : Mode) (now : ℕ)
    (slab : Bool × Bool) :
    Kept scf (storeAccount bal scf s rule key mode now slab).2.2 ∧
      (storeAccount bal scf s rule key mode now slab).2.2.log.length ≤ s.log.length + 37 := by
  unfold storeAccount
  cases hfind : storeLookup s rule.sig key with
  | none =>
    simp only
    split
    · exact ⟨hk, Nat.le_add_right _ _⟩
    · exact kept_storeInsert hk hfind _ now slab
  | some rn =>
    have hrn := ((storeLookup_eq_some hk).1 hfind).1
    simp only
    split
    · refine ⟨hk.touch hrn fun n => ?_, Nat.le_add_right _ _⟩
      split <;> exact ⟨rfl, rfl⟩
    · refine ⟨hk.touch hrn fun n => ?_, Nat.le_add_right _ _⟩
      split <;> exact ⟨rfl, rfl⟩

/-- **Step lemma.** An operation keeps the store, and inserts and frees at most 37 counters. -/
theorem kept_storeStep (hk : Kept scf s) (op : Op) :
    Kept scf (storeStep bal scf s op) ∧
      (storeStep bal scf s op).log.length ≤ s.log.length + 37 := by
  cases op with
  | account rule key mode now slab => exact kept_storeAccount hk rule key.1 mode now slab
  | insert rule key excess now slab =>
    simp only [storeStep]
    split
    · next hnone => exact kept_storeInsert hk (Option.isNone_iff_eq_none.1 hnone) excess now slab
    · exact ⟨hk, Nat.le_add_right _ _⟩
  | expire now force =>
    have hexpire : Evicts scf 2 s (storeExpire bal now s force) := evicts_expire hk now force
    have := hexpire.logged
    exact ⟨hexpire.kept, by simp only [storeStep]; omega⟩

end

/-! ### The bytes of a counter -/

/-- The loop of `ngx_http_waf_rate_charge` ends: the charge doubles until it holds the size. -/
theorem le_chargeLoop {fuel charge size : ℕ} (hcharge : 0 < charge) (hfuel : size ≤ charge + fuel) :
    size ≤ chargeLoop fuel charge size := by
  induction fuel generalizing charge with
  | zero => exact hfuel
  | succ fuel ih =>
    simp only [chargeLoop]
    split
    · exact ih (by omega) (by omega)
    · omega

theorem le_rateCharge (len : ℕ) : 84 + len ≤ rateCharge len :=
  le_chargeLoop (by norm_num) (by omega)

/-! ### The counters without the tree -/

/-- The queue and the allowance of a store. -/
def Store.shm (s : Store) : Shm := ⟨s.lru, s.rateBytes⟩

section

variable {bal : Balance Node.id} {scf : ShmConf} {s : Store} {rn : Node}

/-- The other counters, where the counter stands in the queue. -/
theorem filter_middle {l m : List Node} (h : ((l ++ rn :: m).map Node.id).Nodup) :
    (l ++ rn :: m).filter (fun n => n.id ≠ rn.id) = l ++ m := by
  rw [List.map_append, List.map_cons, List.nodup_middle, List.nodup_cons, List.mem_append] at h
  have hne : ∀ n ∈ l ++ m, n.id ≠ rn.id := by
    intro n hn hid
    rcases List.mem_append.1 hn with hl | hm
    · exact h.1 (.inl (List.mem_map.2 ⟨n, hl, hid⟩))
    · exact h.1 (.inr (List.mem_map.2 ⟨n, hm, hid⟩))
  rw [← List.filter_eq_self.2 fun n hn => decide_eq_true (hne n hn), List.filter_append,
    List.filter_append, List.filter_cons_of_neg (by simp)]

theorem Kept.filter_last (hk : Kept scf s) (hlast : s.lru.getLast? = some rn) :
    s.lru.filter (fun n => n.id ≠ rn.id) = s.lru.dropLast := by
  obtain ⟨l, hl⟩ := List.getLast?_eq_some_iff.1 hlast
  have hnodup := hk.nodup
  rw [hl] at hnodup ⊢
  rw [filter_middle hnodup, List.append_nil, List.dropLast_concat]

theorem Kept.filter_found (hk : Kept scf s) (hrn : rn ∈ s.lru) :
    s.lru.filter (fun n => n.id ≠ rn.id) = s.lru.eraseP (Node.isFor rn.sig rn.key) := by
  obtain ⟨l, m, hl⟩ := List.append_of_mem hrn
  have hnodup := hk.nodup
  rw [hl] at hnodup ⊢
  rw [filter_middle hnodup]
  rw [List.map_append, List.map_cons, List.nodup_middle, List.nodup_cons, List.mem_append] at hnodup
  have hbefore : ∀ n ∈ l, ¬ Node.isFor rn.sig rn.key n = true := by
    intro n hn hfor
    exact hnodup.1 (.inl (List.mem_map.2 ⟨n, hn, id_eq_iff.2 (isFor_iff.1 hfor)⟩))
  rw [List.eraseP_append_right _ hbefore, List.eraseP_cons_of_pos (isFor_iff.2 ⟨rfl, rfl⟩)]

theorem storeLookup_refines (hk : Kept scf s) (sig : ℕ) (key : Bytes) :
    storeLookup s sig key = rateLookup s.shm sig key := by
  cases hfind : rateLookup s.shm sig key with
  | some rn =>
    have hfor := isFor_iff.1 (List.find?_some hfind)
    exact (storeLookup_eq_some hk).2 ⟨List.mem_of_find?_eq_some hfind, hfor⟩
  | none =>
    refine (storeLookup_eq_none hk).2 fun n hn hid => ?_
    refine List.find?_eq_none.1 hfind n hn (isFor_iff.2 ?_)
    exact (id_eq_iff (b := ⟨sig, key, 0, 0, 0⟩)).1 hid

theorem storeFree_refines (hk : Kept scf s) (hlast : s.lru.getLast? = some rn) :
    (storeFree bal s rn).shm = rateFree s.shm rn := by
  simp only [Store.shm, storeFree, rateFree, hk.filter_last hlast]
  rfl

theorem storeExpireLoop_refines (hk : Kept scf s) (now n : ℕ) (force : Bool) :
    (storeExpireLoop bal now n force s).shm = rateExpireLoop now n force s.shm := by
  induction n generalizing s force with
  | zero => rfl
  | succ n ih =>
    have hqueue : s.shm.lru = s.lru := rfl
    simp only [storeExpireLoop, rateExpireLoop, hqueue]
    cases hlast : s.lru.getLast? with
    | none => rfl
    | some rn =>
      simp only
      split
      · rfl
      · rw [ih (hk.free (List.mem_of_getLast? hlast)), storeFree_refines hk hlast]

theorem storeExpire_refines (hk : Kept scf s) (now : ℕ) (force : Bool) :
    (storeExpire bal now s force).shm = rateExpire now s.shm force :=
  storeExpireLoop_refines hk now 2 force

theorem storeEvictLoop_refines (hk : Kept scf s) (now charge n : ℕ) :
    (storeEvictLoop bal scf now charge n s).shm = evictLoop scf now charge n s.shm := by
  induction n generalizing s with
  | zero => rfl
  | succ n ih =>
    have hexpire : Evicts scf 2 s (storeExpire bal now s true) := evicts_expire hk now true
    have hcond : (s.shm.rateBytes + charge > scf.rateMax ∧ s.shm.lru ≠ []) ↔
      (s.rateBytes + charge > scf.rateMax ∧ s.lru ≠ []) := Iff.rfl
    simp only [storeEvictLoop, evictLoop, hcond]
    split
    · rw [ih hexpire.kept, storeExpire_refines hk]
    · rfl

theorem storeInsert_refines (hk : Kept scf s) (rule : Rule) (key : Bytes) (excess now : ℕ)
    (slab : Bool × Bool) :
    (storeInsert bal scf s rule key excess now slab).shm =
      rateInsert scf s.shm rule key excess now slab := by
  have h1 : Evicts scf 2 s (storeExpire bal now s false) := evicts_expire hk now false
  have h2 : Evicts scf 32 _ (storeEvictLoop bal scf now (rateCharge key.length) 16 _) :=
    evicts_evictLoop h1.kept now (rateCharge key.length) 16
  have hroom : (storeEvictLoop bal scf now (rateCharge key.length) 16 _).shm = _ :=
    storeEvictLoop_refines h1.kept now (rateCharge key.length) 16
  rw [storeExpire_refines hk] at hroom
  unfold storeInsert rateInsert
  simp only
  rw [← hroom]
  generalize storeEvictLoop bal scf now (rateCharge key.length) 16 (storeExpire bal now s false) = t
    at h2 ⊢
  have hforce : (storeExpire bal now t true).shm = _ := storeExpire_refines h2.kept now true
  rw [← hforce]
  have hbytes : t.shm.rateBytes = t.rateBytes := rfl
  rw [hbytes]
  split
  · split
    · rfl
    · split <;> rfl
  · rfl

/-- **The tree changes nothing else.**  Answer, excess, queue and allowance are those of
`rateAccount`. -/
theorem storeAccount_refines (hk : Kept scf s) (rule : Rule) (key : Bytes) (mode : Mode) (now : ℕ)
    (slab : Bool × Bool) :
    rateAccount scf s.shm rule key mode now slab =
      ((storeAccount bal scf s rule key mode now slab).1,
        (storeAccount bal scf s rule key mode now slab).2.1,
        (storeAccount bal scf s rule key mode now slab).2.2.shm) := by
  unfold storeAccount rateAccount
  rw [storeLookup_refines hk]
  cases hfind : rateLookup s.shm rule.sig key with
  | none =>
    simp only
    split
    · rfl
    · rw [storeInsert_refines hk]
  | some rn =>
    have hfound := (storeLookup_eq_some hk).1 ((storeLookup_refines hk _ _).trans hfind)
    obtain ⟨hrn, hsig, hkey⟩ := hfound
    have hrest := hk.filter_found hrn
    rw [hsig, hkey] at hrest
    simp only [Store.touch, Store.shm, hrest]
    split
    · simp only
    · simp only

end

/-! ### The result -/

/-- **Exactness.**  After any sequence of operations on an empty zone, the tree and the queue hold the
same counters, one for a signature and a key at most, whose charges make up `rate_bytes`, within
`rate_max`; a lookup finds the counter that was inserted and not freed since, and no other.  An
operation inserts and frees at most 37 counters, and the loop of the charge ends with room for the
counter. -/
theorem rate_storage_exact (bal : Balance Node.id) (scf : ShmConf) (ops : List Op) :
    let s := runFrom (storeStep bal scf) Store.init ops
    s.tree.toList.Perm s.lru ∧
      (s.lru.map fun rn => (rn.sig, rn.key)).Nodup ∧
      s.rateBytes = (s.lru.map fun rn => rateCharge rn.key.length).sum ∧
      s.rateBytes ≤ scf.rateMax ∧
      (∀ sig key, (storeLookup s sig key).isSome = held sig key s.log) ∧
      (∀ sig key rn, storeLookup s sig key = some rn → rn ∈ s.lru ∧ rn.sig = sig ∧ rn.key = key) ∧
      (∀ op, (storeStep bal scf s op).log.length ≤ s.log.length + 37) ∧
      ∀ len, 84 + len ≤ rateCharge len := by
  intro s
  have hstep (s : Store) (op : Op) (hs : Kept scf s) : Kept scf (storeStep bal scf s op) :=
    (kept_storeStep hs op).1
  have hk : Kept scf s := invariant_always hstep ops (kept_init scf)
  refine ⟨hk.same, ?_, hk.bytes, hk.within, fun sig key => ?_,
    fun sig key rn => (storeLookup_eq_some hk).1, fun op => (kept_storeStep hk op).2, le_rateCharge⟩
  · have hids : s.lru.map Node.id =
        (s.lru.map fun rn => (rn.sig, rn.key)).map fun p => treeKey p.1 p.2 := by
      rw [List.map_map]
      rfl
    exact List.Nodup.of_map _ (hids ▸ hk.nodup)
  · rw [Bool.eq_iff_iff, ← hk.logged, Option.isSome_iff_exists]
    simp only [storeLookup_eq_some hk]

end Rate
