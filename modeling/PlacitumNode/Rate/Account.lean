import PlacitumNode.Lib.Machine
import PlacitumNode.Lib.Octets
import PlacitumNode.Lib.Run

/-!
# Local rate counters (`local/ngx_http_waf_rate.c`)

The counters of `waf_local_rate` live in a shared zone: a red-black tree finds the counter of a
rule and a key, a queue orders the same counters by the time of their last use, and an allowance
in bytes bounds them.  Here the zone is the queue, most recently used first; the tree holds the
same nodes under `(crc32 key ^ sig, sig, key)`, of which the hash is a function of the other two,
so a tree lookup is the search of the queue for `(sig, key)`.

* `rateElapsed`, `rateAccount`: one call, in each of the three modes;
* `rateInsert`, `rateExpire`, `rateFree`: room for a new counter;
* `Call`, `step`: a sequence of calls made by any workers (each call holds the zone's lock).
-/

namespace Rate

open Machine Octets

/-! ### Rules -/

/-- `ngx_http_waf_rate_count_e` -/
inductive RateCount
  | requests
  | waves
  | frames
  deriving DecidableEq

/-- `ngx_http_waf_dataset_hash_e` -/
inductive RateHash
  | none
  | md5
  deriving DecidableEq

def RateCount.code : RateCount → ℕ
  | requests => 0
  | waves => 1
  | frames => 2

def RateHash.code : RateHash → ℕ
  | none => 0
  | md5 => 1

/-- The fields of `ngx_http_waf_rate_rule_t` that counting reads: `rate` in thousandths of a
request a second, `burst` in thousandths of a request, and the text of the key operand. -/
structure Rule where
  rate : ℕ
  burst : ℕ
  count : RateCount
  hash : RateHash
  text : Bytes
  deriving DecidableEq

/-- One bit of the reflected CRC-32 polynomial division. -/
def crc32Bit (c : ℕ) : ℕ := if c % 2 = 1 then (c / 2) ^^^ 0xedb88320 else c / 2

/-- `ngx_crc32_update` for one byte. -/
def crc32Byte (c : ℕ) (b : UInt8) : ℕ := crc32Bit^[8] (c ^^^ b.toNat)

/-- `ngx_crc32_init`, `ngx_crc32_update`, `ngx_crc32_final`. -/
def crc32 (bs : Bytes) : ℕ := bs.foldl crc32Byte 0xffffffff ^^^ 0xffffffff

/-- The eight bytes of a word in memory. -/
def word (n : ℕ) : Bytes := (List.range 8).map fun i => UInt8.ofNat (n / 256 ^ i)

/-- The signature that names the rule's counters in the zone. -/
def Rule.sig (r : Rule) : ℕ :=
  crc32 (word r.rate ++ word r.burst ++ word r.count.code ++ word r.hash.code ++ r.text)

/-! ### The zone -/

/-- `ngx_http_waf_rate_node_t` -/
structure Node where
  sig : ℕ
  key : Bytes
  rate : ℕ
  excess : ℕ
  last : ℕ
  deriving DecidableEq

/-- The counters' part of `ngx_http_waf_shm_t`. -/
structure Shm where
  lru : List Node
  rateBytes : ℕ
  deriving DecidableEq

/-- The zone as the master creates it. -/
def Shm.init : Shm := ⟨[], 0⟩

/-- The allowance of the counters, from `ngx_http_waf_shm_conf_t`. -/
structure ShmConf where
  rateMax : ℕ

def Node.isFor (sig : ℕ) (key : Bytes) (n : Node) : Bool := n.sig == sig && n.key == key

theorem isFor_iff {sig : ℕ} {key : Bytes} {n : Node} :
    n.isFor sig key = true ↔ n.sig = sig ∧ n.key = key := by
  simp [Node.isFor]

/-- `ngx_http_waf_rate_lookup` -/
def rateLookup (shm : Shm) (sig : ℕ) (key : Bytes) : Option Node :=
  shm.lru.find? (Node.isFor sig key)

/-- The smallest power of two from `charge` on that holds `size`. -/
def chargeLoop : ℕ → ℕ → ℕ → ℕ
  | 0, charge, _ => charge
  | fuel + 1, charge, size => if charge < size then chargeLoop fuel (2 * charge) size else charge

/-- `ngx_http_waf_rate_charge`: 84 bytes stand before the key. -/
def rateCharge (len : ℕ) : ℕ := chargeLoop (84 + len) 8 (84 + len)

/-- `ngx_http_waf_rate_elapsed`: another worker may have stored a fresher cached time. -/
def rateElapsed (now last : ℕ) : ℕ :=
  let ms := signed ((now : ℤ) - last)
  if ms < -60000 then 1 else if ms < 0 then 0 else ms.toNat

/-- `ngx_http_waf_rate_free` of the last node of the queue, the only node it is ever called on. -/
def rateFree (shm : Shm) (rn : Node) : Shm :=
  let charge := rateCharge rn.key.length
  { lru := shm.lru.dropLast
    rateBytes := if shm.rateBytes > charge then shm.rateBytes - charge else 0 }

/-- The two rounds of `ngx_http_waf_rate_expire`. -/
def rateExpireLoop (now : ℕ) : ℕ → Bool → Shm → Shm
  | 0, _, shm => shm
  | n + 1, force, shm =>
    match shm.lru.getLast? with
    | none => shm
    | some rn =>
      if !force && decide
          (0 < signed rn.excess - perMille rn.rate (rateElapsed now rn.last)) then
        shm
      else
        rateExpireLoop now n false (rateFree shm rn)

/-- `ngx_http_waf_rate_expire` -/
def rateExpire (now : ℕ) (shm : Shm) (force : Bool) : Shm := rateExpireLoop now 2 force shm

/-- The evictions of `ngx_http_waf_rate_insert`, at most `NGX_HTTP_WAF_RATE_EVICT` of them. -/
def evictLoop (scf : ShmConf) (now charge : ℕ) : ℕ → Shm → Shm
  | 0, shm => shm
  | n + 1, shm =>
    if shm.rateBytes + charge > scf.rateMax ∧ shm.lru ≠ [] then
      evictLoop scf now charge n (rateExpire now shm true)
    else shm

/-- `ngx_http_waf_rate_insert`.  `slab` are the answers of the two slab allocations. -/
def rateInsert (scf : ShmConf) (shm : Shm) (rule : Rule) (key : Bytes) (excess now : ℕ)
    (slab : Bool × Bool) : Shm :=
  let charge := rateCharge key.length
  let node : Node := ⟨rule.sig, key, rule.rate, excess, now⟩
  let add (shm : Shm) : Shm := ⟨node :: shm.lru, shm.rateBytes + charge⟩
  let shm := evictLoop scf now charge 16 (rateExpire now shm false)
  if shm.rateBytes + charge ≤ scf.rateMax then
    if slab.1 then add shm
    else
      let shm := rateExpire now shm true
      if slab.2 then add shm else shm
  else shm

/-! ### One call -/

/-- `ngx_http_waf_rate_mode_e` -/
inductive Mode
  | peek
  | gate
  | debt
  deriving DecidableEq

/-- `NGX_OK` or `NGX_DECLINED` -/
inductive Answer
  | ok
  | declined
  deriving DecidableEq

/-- The charge of a counter once the time since its last use is paid back and the call is added,
never below zero. -/
def levelAt (rule : Rule) (rn : Node) (mode : Mode) (now : ℕ) : ℤ :=
  max 0 (signed (signed rn.excess - perMille rule.rate (rateElapsed now rn.last)
    + if mode = .peek then 0 else 1000))

/-- `ngx_http_waf_rate_account`: the answer, the excess reported to the caller, the zone. -/
def rateAccount (scf : ShmConf) (shm : Shm) (rule : Rule) (key : Bytes) (mode : Mode) (now : ℕ)
    (slab : Bool × Bool) : Answer × ℕ × Shm :=
  match rateLookup shm rule.sig key with
  | none =>
    (.ok, 0,
      if mode = .peek then shm
      else rateInsert scf shm rule key (if mode = .debt then 1000 else 0) now slab)
  | some rn =>
    let rest := shm.lru.eraseP (Node.isFor rule.sig key)
    let value := levelAt rule rn mode now
    let last := if rateElapsed now rn.last = 0 then rn.last else now
    let put (rn : Node) : Shm := { shm with lru := rn :: rest }
    if value ≤ signed rule.burst then
      (.ok, value.toNat,
        put (if mode = .peek then rn else { rn with excess := value.toNat, last := last }))
    else
      let limit := signed (rule.burst + rule.rate)
      (.declined, value.toNat,
        put (if mode = .debt then
          { rn with excess := (min value limit % 2 ^ 64).toNat, last := last } else rn))

/-! ### Sequences of calls in gate mode -/

/-- One call of `ngx_http_waf_rate_account` in gate mode. -/
structure Call where
  rule : Rule
  key : Bytes
  now : ℕ
  slab : Bool × Bool
  deriving DecidableEq

def Call.answer (scf : ShmConf) (shm : Shm) (c : Call) : Answer :=
  (rateAccount scf shm c.rule c.key .gate c.now c.slab).1

def step (scf : ShmConf) (shm : Shm) (c : Call) : Shm :=
  (rateAccount scf shm c.rule c.key .gate c.now c.slab).2.2

/-- The calls for `rule` and `key` with a time in `[t₀, t₀ + T]` that were answered `NGX_OK`. -/
def admitted (scf : ShmConf) (rule : Rule) (key : Bytes) (t₀ T : ℕ) : Shm → List Call → ℕ
  | _, [] => 0
  | shm, c :: cs =>
    (if c.rule = rule ∧ c.key = key ∧ t₀ ≤ c.now ∧ c.now ≤ t₀ + T ∧ c.answer scf shm = .ok
      then 1 else 0) + admitted scf rule key t₀ T (step scf shm c) cs

/-- A clock that never goes back. -/
def Monotone (cs : List Call) : Prop := cs.Pairwise fun a b => a.now ≤ b.now

/-- The call finds room for a new counter: it forces no counter out and its allocation succeeds. -/
def Roomy (scf : ShmConf) (shm : Shm) (c : Call) : Prop :=
  rateLookup shm c.rule.sig c.key = none →
    (rateExpire c.now shm false).rateBytes + rateCharge c.key.length ≤ scf.rateMax ∧
      c.slab.1 = true

instance (scf : ShmConf) (shm : Shm) (c : Call) : Decidable (Roomy scf shm c) := by
  unfold Roomy; infer_instance

end Rate
