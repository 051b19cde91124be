import PlacitumNode.Lib.Octets
import PlacitumNode.Lib.Window

/-!
# Request rates of the agent (`agent/internal/rps`)

A counter keeps one slot for each of the last ten seconds, in all and by the class of the answer. The
routes have a counter each, in a table of a fixed size.

* `Counter`, `Counter.add`, `Counter.rate`, `Counter.status`: `rps.go`;
* `Routes`, `Routes.add`, `Routes.snapshot`: `routes.go`;
* `Exact`, `exact_advance`: the counter is right about its window from a time on;
* `Routes.Kept`, `kept_add`, `kept_snapshot`: the same for a table whose silent rows are thrown away;
* `rate_windows_exact`: every rate is the number of requests in its window.
-/

namespace Rps

open Octets Window

/-- `Window` -/
abbrev seconds : ℕ := 10

/-! ### The counter -/

/-- `Counter`. An `epoch` of zero is a counter that was never used. Times are seconds of a positive
clock; the words that hold the counts are wide enough by `sums_fit`. -/
structure Counter where
  total : Buckets seconds
  cls : Fin 4 → Buckets seconds
  epoch : ℕ

/-- `New`, and the counter of a new route. -/
def Counter.new : Counter := ⟨fun _ => 0, fun _ _ => 0, 0⟩

/-- `Class` -/
def classOf (status : ℤ) (verdict : Bytes) : ℕ :=
  if 200 ≤ status ∧ status < 600 then (status / 100).toNat
  else if verdict = ascii "allow" then 2
  else if verdict = ascii "redirect" then 3
  else if verdict = ascii "deny" then 4
  else 0

/-- `Counter.advance` -/
def Counter.advance (c : Counter) (now : ℕ) : Counter :=
  if c.epoch = 0 then { c with epoch := now }
  else if now ≤ c.epoch then c
  else if now - c.epoch ≥ seconds then ⟨fun _ => 0, fun _ _ => 0, now⟩
  else
    { total := sweep c.epoch (now - c.epoch) c.total
      cls := fun k => sweep c.epoch (now - c.epoch) (c.cls k)
      epoch := now }

/-- `Counter.Add` -/
def Counter.add (c : Counter) (status : ℤ) (verdict : Bytes) (now : ℕ) : Counter :=
  let c := c.advance now
  { c with
    total := hit c.total now
    cls := fun k => if classOf status verdict = k + 2 then hit (c.cls k) now else c.cls k }

/-- `rate` -/
def rateOf (b : Buckets seconds) : ℚ := (∑ i, b i : ℕ) / seconds

/-- `Counter.Rate` -/
def Counter.rate (c : Counter) (now : ℕ) : ℚ × Counter :=
  (rateOf (c.advance now).total, c.advance now)

/-- `StatusRates`, by class. -/
abbrev StatusRates := Fin 4 → ℚ

/-- `Counter.Status` -/
def Counter.status (c : Counter) (now : ℕ) : StatusRates × Counter :=
  (fun k => rateOf ((c.advance now).cls k), c.advance now)

/-! ### What was added -/

/-- An added request: its second and its class. -/
structure Hit where
  second : ℕ
  cls : ℕ

/-- The seconds of the requests. -/
def times (hs : List Hit) : List ℕ := hs.map Hit.second

/-- The seconds of the requests of a class. -/
def timesOf (k : Fin 4) (hs : List Hit) : List ℕ := times (hs.filter fun h => h.cls = k + 2)

/-- The counter is right about the window that ends now. -/
structure Counter.Right (c : Counter) (now : ℕ) (hs : List Hit) : Prop where
  epoch : c.epoch = now
  total : Counts now c.total (times hs)
  cls : ∀ k, Counts now (c.cls k) (timesOf k hs)

/-- The counter is right at any time from `lo` on: it was moved there before, or it is new and all
requests are out of the window. -/
def Counter.Exact (c : Counter) (lo : ℕ) (hs : List Hit) : Prop :=
  (c = Counter.new ∧ ∀ h ∈ hs, h.second + seconds ≤ lo) ∨
    ∃ e ≤ lo, 0 < e ∧ c.Right e hs

theorem mem_timesOf {k : Fin 4} {hs : List Hit} {t : ℕ} (h : t ∈ timesOf k hs) : t ∈ times hs := by
  obtain ⟨h', hmem, rfl⟩ := List.mem_map.1 h
  exact List.mem_map_of_mem (List.mem_of_mem_filter hmem)

/-- Moving the counter makes it right about now. -/
theorem exact_advance {c : Counter} {lo now : ℕ} {hs : List Hit} (h : c.Exact lo hs)
    (hlo : lo ≤ now) : (c.advance now).Right now hs := by
  rcases h with ⟨rfl, hout⟩ | ⟨e, hle, he, hright⟩
  · have hall : ∀ t ∈ times hs, t + seconds ≤ now := by
      intro t ht
      obtain ⟨h, hmem, rfl⟩ := List.mem_map.1 ht
      exact le_trans (hout h hmem) hlo
    have hnew : Counter.new.epoch = 0 := rfl
    rw [Counter.advance, if_pos hnew]
    exact ⟨rfl, counts_zero hall, fun k => counts_zero fun t ht => hall t (mem_timesOf ht)⟩
  · have hepoch := hright.epoch
    rw [Counter.advance, hepoch, if_neg he.ne']
    by_cases hsame : now ≤ e
    · obtain rfl : now = e := by omega
      rw [if_pos le_rfl]
      exact hright
    · rw [if_neg hsame]
      by_cases hfar : now - e ≥ seconds
      · rw [if_pos hfar]
        exact ⟨rfl, counts_clear (by omega) hright.total,
          fun k => counts_clear (by omega) (hright.cls k)⟩
      · rw [if_neg hfar]
        have hnow : e + (now - e) = now := by omega
        have hswept := counts_sweep (by omega : now - e < seconds) hright.total
        rw [hnow] at hswept
        refine ⟨rfl, hswept, fun k => ?_⟩
        have hcls := counts_sweep (by omega : now - e < seconds) (hright.cls k)
        rwa [hnow] at hcls

theorem Counter.Right.exact {c : Counter} {now : ℕ} {hs : List Hit} (h : c.Right now hs)
    (hpos : 0 < now) : c.Exact now hs := Or.inr ⟨now, le_rfl, hpos, h⟩

theorem Counter.Exact.mono {c : Counter} {lo lo' : ℕ} {hs : List Hit} (h : c.Exact lo hs)
    (hle : lo ≤ lo') : c.Exact lo' hs := by
  rcases h with ⟨hnew, hout⟩ | ⟨e, he, hpos, hright⟩
  · exact Or.inl ⟨hnew, fun h hmem => le_trans (hout h hmem) hle⟩
  · exact Or.inr ⟨e, le_trans he hle, hpos, hright⟩

/-- A request is counted in all and in its class. -/
theorem right_add {c : Counter} {lo now : ℕ} {hs : List Hit} (h : c.Exact lo hs) (hlo : lo ≤ now)
    (status : ℤ) (verdict : Bytes) :
    (c.add status verdict now).Right now (hs ++ [⟨now, classOf status verdict⟩]) := by
  have hright := exact_advance h hlo
  refine ⟨hright.epoch, ?_, fun k => ?_⟩
  · rw [times, List.map_append]
    exact counts_hit hright.total
  · rw [timesOf, times, List.filter_append, List.map_append]
    by_cases hk : classOf status verdict = k + 2
    · simp only [Counter.add, hk, if_true, List.filter_cons, decide_true, List.filter_nil,
        List.map_cons, List.map_nil]
      exact counts_hit (hright.cls k)
    · simp only [Counter.add, hk, if_false, List.filter_cons, decide_false, Bool.false_eq_true,
        List.filter_nil, List.map_nil, List.append_nil]
      exact hright.cls k

/-- The sum behind a rate is the number of requests in the window. -/
theorem rateOf_counts {b : Buckets seconds} {now : ℕ} {ts : List ℕ} (h : Counts now b ts) :
    rateOf b = inWindow seconds now ts / seconds := by
  rw [rateOf, sum_of_counts h]

/-- The number of requests of the last ten seconds up to now. -/
def recent (now : ℕ) (hs : List Hit) : ℕ :=
  hs.countP fun h => now < h.second + seconds ∧ h.second ≤ now

/-- Those of a class. -/
def recentOf (k : Fin 4) (now : ℕ) (hs : List Hit) : ℕ := recent now (hs.filter fun h => h.cls = k + 2)

/-- Where nothing is later than now. -/
theorem inWindow_times {now : ℕ} {hs : List Hit} (hpast : ∀ t ∈ times hs, t ≤ now) :
    inWindow seconds now (times hs) = recent now hs := by
  rw [inWindow, times, List.countP_map, recent]
  refine List.countP_congr fun h hmem => ?_
  have hle : h.second ≤ now := hpast h.second (List.mem_map_of_mem hmem)
  simp [hle]

theorem Counter.Right.rates {c : Counter} {now : ℕ} {hs : List Hit} (h : c.Right now hs) :
    rateOf c.total = recent now hs / seconds ∧
      ∀ k, rateOf (c.cls k) = recentOf k now hs / seconds := by
  refine ⟨?_, fun k => ?_⟩
  · rw [rateOf_counts h.total, inWindow_times h.total.past]
  · rw [rateOf_counts (h.cls k), timesOf, inWindow_times (h.cls k).past, recentOf]

/-! ### The routes -/

/-- `Route` -/
structure Route where
  server : Bytes
  location : Bytes
  id : Bytes
  deriving DecidableEq

/-- `Routes`. The rows are a map, so no route has two. -/
structure Routes where
  rows : List (Route × Counter)
  max : ℕ
  dropped : ℕ
  nodup : (rows.map Prod.fst).Nodup

/-- `NewRoutes` with a number of rows to hold at most; `MaxRoutes` is 512. -/
def Routes.new (max : ℕ) : Routes := ⟨[], max, 0, List.nodup_nil⟩

/-- The rows that are left when every counter is asked for its rate at the second `read` gives and the
silent ones are deleted, with each counter as the question leaves it. -/
def liveRows (read : Route → ℕ) (rows : List (Route × Counter)) : List (Route × Counter) :=
  rows.filterMap fun row =>
    if (row.2.rate (read row.1)).1 = 0 then none else some (row.1, (row.2.rate (read row.1)).2)

theorem nodup_liveRows {read : Route → ℕ} {rows : List (Route × Counter)}
    (h : (rows.map Prod.fst).Nodup) : ((liveRows read rows).map Prod.fst).Nodup := by
  refine h.sublist ?_
  rw [liveRows]
  clear h
  induction rows with
  | nil => exact List.Sublist.refl _
  | cons row rows ih =>
    rw [List.filterMap_cons, List.map_cons]
    split
    · exact ih.cons _
    · next row' hrow =>
      split at hrow
      · cases hrow
      · cases hrow
        exact ih.cons_cons _

/-- `Routes.evictSilent`: the table, and whether a row was freed. -/
def Routes.evictSilent (r : Routes) (read : Route → ℕ) : Routes × Bool :=
  ({ r with rows := liveRows read r.rows, nodup := nodup_liveRows r.nodup },
    decide ((liveRows read r.rows).length < r.rows.length))

/-- The counter of a route. -/
def Routes.row (r : Routes) (key : Route) : Option Counter :=
  (r.rows.find? fun row => row.1 = key).map Prod.snd

/-- Which way `Routes.Add` goes. -/
inductive Added
  | empty
  | dropped
  | counted
  deriving DecidableEq

/-- A row gets a new counter. -/
def Routes.store (r : Routes) (key : Route) (c : Counter) : Routes :=
  { r with
    rows := (key, c) :: r.rows.filter fun row => row.1 ≠ key
    nodup := by
      have hrest := r.nodup.sublist (List.filter_sublist.map Prod.fst :
        ((r.rows.filter fun row => row.1 ≠ key).map Prod.fst).Sublist _)
      refine List.nodup_cons.2 ⟨?_, hrest⟩
      simp }

/-- `Routes.Add`: `read` is the clock in `evictSilent`, `now` that in `Counter.Add`. -/
def Routes.add (r : Routes) (key : Route) (status : ℤ) (verdict : Bytes) (read : Route → ℕ)
    (now : ℕ) : Routes × Added :=
  if key.server = [] ∧ key.location = [] then (r, .empty)
  else
    match r.row key with
    | some c => (r.store key (c.add status verdict now), .counted)
    | none =>
      if r.rows.length ≥ r.max then
        let (r, freed) := r.evictSilent read
        if freed then (r.store key (Counter.new.add status verdict now), .counted)
        else ({ r with dropped := r.dropped + 1 }, .dropped)
      else (r.store key (Counter.new.add status verdict now), .counted)

/-- `RouteRates` -/
structure RouteRates where
  route : Route
  rps : ℚ
  codes : StatusRates

/-- The order of `Snapshot`. -/
def before (a b : RouteRates) : Bool :=
  if a.route.server ≠ b.route.server then decide (a.route.server < b.route.server)
  else if a.route.location ≠ b.route.location then decide (a.route.location < b.route.location)
  else decide (a.route.id ≤ b.route.id)

/-- `Routes.Snapshot`: each counter is asked for its rate at the second `first` gives and, when it is not
silent, for its classes at the second `second` gives. -/
def Routes.snapshot (r : Routes) (first second : Route → ℕ) : List RouteRates × Routes :=
  let live := r.rows.filter fun row => (row.2.rate (first row.1)).1 ≠ 0
  let report := live.map fun row =>
    { route := row.1
      rps := (row.2.rate (first row.1)).1
      codes := ((row.2.rate (first row.1)).2.status (second row.1)).1 }
  let rows := live.map fun row =>
    (row.1, ((row.2.rate (first row.1)).2.status (second row.1)).2)
  (report.mergeSort before,
    { r with
      rows := rows
      nodup := by
        have hkeys : rows.map Prod.fst = live.map Prod.fst := by
          rw [List.map_map]
          rfl
        rw [hkeys]
        exact r.nodup.sublist (List.filter_sublist.map Prod.fst) })

/-! ### What the table knows -/

/-- The requests of a route. -/
def hitsOf (key : Route) (hist : List (Route × Hit)) : List Hit :=
  (hist.filter fun p => p.1 = key).map Prod.snd

/-- The table is right about all requests counted so far, from the second `lo` on: a row is right, and a
route without a row was silent. -/
structure Routes.Kept (r : Routes) (lo : ℕ) (hist : List (Route × Hit)) : Prop where
  size : r.rows.length ≤ r.max
  row : ∀ row ∈ r.rows, row.2.Exact lo (hitsOf row.1 hist)
  gone : ∀ key, key ∉ r.rows.map Prod.fst → ∀ h ∈ hitsOf key hist, h.second + seconds ≤ lo

/-- The rate of a counter that is right from `lo` on. -/
theorem rate_eq {c : Counter} {lo now : ℕ} {hs : List Hit} (h : c.Exact lo hs) (hlo : lo ≤ now) :
    (c.rate now).1 = recent now hs / seconds :=
  (exact_advance h hlo).rates.1

theorem rate_eq_zero_iff {c : Counter} {lo now : ℕ} {hs : List Hit} (h : c.Exact lo hs)
    (hlo : lo ≤ now) : (c.rate now).1 = 0 ↔ recent now hs = 0 := by
  rw [rate_eq h hlo, div_eq_zero_iff]
  simp

/-- A silent route has no request that could still be in a window. -/
theorem out_of_silent {c : Counter} {lo now : ℕ} {hs : List Hit} (h : c.Exact lo hs) (hlo : lo ≤ now)
    (hrate : (c.rate now).1 = 0) {hit : Hit} (hhit : hit ∈ hs) : hit.second + seconds ≤ now := by
  have hpast := (exact_advance h hlo).total.past hit.second (List.mem_map_of_mem hhit)
  have hnone := List.countP_eq_zero.1 ((rate_eq_zero_iff h hlo).1 hrate) hit hhit
  simp only [decide_eq_true_eq, not_and] at hnone
  omega

theorem exact_rate {c : Counter} {lo now : ℕ} {hs : List Hit} (h : c.Exact lo hs) (hlo : lo ≤ now)
    (hpos : 0 < now) : (c.rate now).2.Exact now hs :=
  (exact_advance h hlo).exact hpos

theorem mem_liveRows {read : Route → ℕ} {rows : List (Route × Counter)} {row : Route × Counter} :
    row ∈ liveRows read rows ↔
      ∃ c, (row.1, c) ∈ rows ∧ (c.rate (read row.1)).1 ≠ 0 ∧ row.2 = (c.rate (read row.1)).2 := by
  rw [liveRows, List.mem_filterMap]
  constructor
  · rintro ⟨old, hmem, hsome⟩
    split at hsome
    · cases hsome
    · next hrate =>
      cases hsome
      exact ⟨old.2, hmem, hrate, rfl⟩
  · rintro ⟨c, hmem, hrate, hrow⟩
    exact ⟨(row.1, c), hmem, by rw [if_neg hrate, ← hrow]⟩

theorem length_liveRows_le (read : Route → ℕ) (rows : List (Route × Counter)) :
    (liveRows read rows).length ≤ rows.length := List.length_filterMap_le _ _

/-- Throwing the silent rows away loses nothing that could still be asked for. -/
theorem kept_evictSilent {r : Routes} {lo hi : ℕ} {hist : List (Route × Hit)} {read : Route → ℕ}
    (h : r.Kept lo hist) (hread : ∀ key, lo ≤ read key ∧ 0 < read key ∧ read key ≤ hi) :
    (r.evictSilent read).1.Kept hi hist := by
  refine ⟨le_trans (length_liveRows_le read r.rows) h.size, ?_, ?_⟩
  · intro row hmem
    obtain ⟨c, hold, -, hrow⟩ := mem_liveRows.1 hmem
    obtain ⟨hlo, hpos, hhi⟩ := hread row.1
    rw [hrow]
    exact (exact_rate (h.row _ hold) hlo hpos).mono hhi
  · intro key hkey hit hhit
    obtain ⟨hlo, hpos, hhi⟩ := hread key
    by_cases hold : key ∈ r.rows.map Prod.fst
    · obtain ⟨row, hmem, rfl⟩ := List.mem_map.1 hold
      have hsilent : (row.2.rate (read row.1)).1 = 0 := by
        by_contra hrate
        refine hkey (List.mem_map.2 ⟨(row.1, (row.2.rate (read row.1)).2), ?_, rfl⟩)
        exact mem_liveRows.2 ⟨row.2, hmem, hrate, rfl⟩
      exact le_trans (out_of_silent (h.row row hmem) hlo hsilent hhit) hhi
    · exact le_trans (h.gone key hold hit hhit) (le_trans hlo hhi)

theorem row_eq_some {r : Routes} {key : Route} {c : Counter} (h : r.row key = some c) :
    (key, c) ∈ r.rows := by
  obtain ⟨row, hfind, rfl⟩ := Option.map_eq_some_iff.1 h
  have hkey : row.1 = key := by simpa using List.find?_some hfind
  rw [← hkey]
  exact List.mem_of_find?_eq_some hfind

theorem row_eq_none {r : Routes} {key : Route} (h : r.row key = none) :
    key ∉ r.rows.map Prod.fst := by
  rw [Routes.row, Option.map_eq_none_iff, List.find?_eq_none] at h
  intro hmem
  obtain ⟨row, hrow, rfl⟩ := List.mem_map.1 hmem
  exact h row hrow (by simp)

theorem hitsOf_append_self (key : Route) (hist : List (Route × Hit)) (hit : Hit) :
    hitsOf key (hist ++ [(key, hit)]) = hitsOf key hist ++ [hit] := by
  simp [hitsOf]

theorem hitsOf_append_of_ne {key key' : Route} (h : key' ≠ key) (hist : List (Route × Hit))
    (hit : Hit) : hitsOf key' (hist ++ [(key, hit)]) = hitsOf key' hist := by
  simp [hitsOf, Ne.symm h]

/-- The counter of one route takes a request. -/
theorem kept_store {r : Routes} {lo now : ℕ} {hist : List (Route × Hit)} {key : Route} {c : Counter}
    (h : r.Kept lo hist) (hc : c.Exact lo (hitsOf key hist)) (hlo : lo ≤ now) (hpos : 0 < now)
    (hroom : r.rows.length < r.max ∨ key ∈ r.rows.map Prod.fst) (status : ℤ) (verdict : Bytes) :
    (r.store key (c.add status verdict now)).Kept now
      (hist ++ [(key, ⟨now, classOf status verdict⟩)]) := by
  have hlen : (r.rows.filter fun row => row.1 ≠ key).length < r.max := by
    rcases hroom with hroom | hmem
    · exact lt_of_le_of_lt (List.length_filter_le _ _) hroom
    · obtain ⟨row, hrow, rfl⟩ := List.mem_map.1 hmem
      refine lt_of_lt_of_le (List.length_filter_lt_length_iff_exists.2 ⟨row, hrow, ?_⟩) h.size
      simp
  refine ⟨hlen, ?_, ?_⟩
  · intro row hmem
    rcases List.mem_cons.1 hmem with rfl | hmem
    · rw [hitsOf_append_self]
      exact (right_add hc hlo status verdict).exact hpos
    · obtain ⟨hold, hne⟩ := List.mem_filter.1 hmem
      rw [hitsOf_append_of_ne (of_decide_eq_true hne)]
      exact (h.row row hold).mono hlo
  · intro key' hkey' hit hhit
    have hne : key' ≠ key := fun heq => hkey' (by rw [heq]; exact List.mem_cons_self)
    rw [hitsOf_append_of_ne hne] at hhit
    refine le_trans (h.gone key' (fun hmem => hkey' ?_) hit hhit) hlo
    obtain ⟨row, hrow, rfl⟩ := List.mem_map.1 hmem
    exact List.mem_cons_of_mem _ (List.mem_map_of_mem (List.mem_filter.2 ⟨hrow, by simpa using hne⟩))

/-- What a call of `Routes.Add` adds to the requests counted. -/
def countedBy (added : Added) (key : Route) (hit : Hit) : List (Route × Hit) :=
  if added = .counted then [(key, hit)] else []

theorem kept_add {r : Routes} {lo now : ℕ} {hist : List (Route × Hit)} {read : Route → ℕ}
    (h : r.Kept lo hist) (hread : ∀ key, lo ≤ read key ∧ 0 < read key ∧ read key ≤ now)
    (hlo : lo ≤ now) (hpos : 0 < now) (key : Route) (status : ℤ) (verdict : Bytes) :
    (r.add key status verdict read now).1.Kept now
      (hist ++ countedBy (r.add key status verdict read now).2 key ⟨now, classOf status verdict⟩) ∧
      (r.add key status verdict read now).1.max = r.max := by
  have hlater : ∀ {r : Routes}, r.Kept lo hist → r.Kept now (hist ++ []) := fun hk => by
    rw [List.append_nil]
    exact ⟨hk.size, fun row hmem => (hk.row row hmem).mono hlo,
      fun key hkey hit hhit => le_trans (hk.gone key hkey hit hhit) hlo⟩
  rw [Routes.add]
  by_cases hempty : key.server = [] ∧ key.location = []
  · rw [if_pos hempty]
    exact ⟨hlater h, rfl⟩
  · rw [if_neg hempty]
    cases hrow : r.row key with
    | some c =>
      have hmem := row_eq_some hrow
      exact ⟨kept_store h (h.row _ hmem) hlo hpos (Or.inr (List.mem_map_of_mem hmem)) status verdict,
        rfl⟩
    | none =>
      have hkey := row_eq_none hrow
      -- A full table makes room by evicting silent routes, or drops the request.
      by_cases hfull : r.rows.length ≥ r.max
      · simp only [if_pos hfull]
        have hkept := kept_evictSilent h hread
        by_cases hfreed : (liveRows read r.rows).length < r.rows.length
        · have hdec : (r.evictSilent read).2 = true := decide_eq_true hfreed
          rw [if_pos hdec]
          have hgone : key ∉ (r.evictSilent read).1.rows.map Prod.fst := by
            intro hmem
            obtain ⟨row, hlive, rfl⟩ := List.mem_map.1 hmem
            obtain ⟨c, hold, -, -⟩ := mem_liveRows.1 hlive
            exact hkey (List.mem_map.2 ⟨_, hold, rfl⟩)
          have hnew : Counter.new.Exact now (hitsOf key hist) :=
            Or.inl ⟨rfl, hkept.gone key hgone⟩
          exact ⟨kept_store hkept hnew le_rfl hpos (Or.inl (lt_of_lt_of_le hfreed h.size)) status
            verdict, rfl⟩
        · have hdec : ¬ (r.evictSilent read).2 = true := by
            rw [Routes.evictSilent]
            simpa using hfreed
          rw [if_neg hdec]
          refine ⟨?_, rfl⟩
          have hdropped : Added.dropped ≠ Added.counted := by decide
          rw [countedBy, if_neg hdropped, List.append_nil]
          exact ⟨hkept.size, hkept.row, hkept.gone⟩
      · simp only [if_neg hfull]
        have hnew : Counter.new.Exact lo (hitsOf key hist) := Or.inl ⟨rfl, h.gone key hkey⟩
        exact ⟨kept_store h hnew hlo hpos (Or.inl (not_le.1 hfull)) status verdict, rfl⟩

/-- The rows that a snapshot keeps. -/
theorem kept_snapshot {r : Routes} {lo hi : ℕ} {hist : List (Route × Hit)} {first second : Route → ℕ}
    (h : r.Kept lo hist)
    (hread : ∀ key, lo ≤ first key ∧ 0 < first key ∧ first key ≤ second key ∧ second key ≤ hi) :
    (r.snapshot first second).2.Kept hi hist := by
  have hkeys : (r.snapshot first second).2.rows.map Prod.fst =
      (r.rows.filter fun row => (row.2.rate (first row.1)).1 ≠ 0).map Prod.fst := by
    rw [Routes.snapshot]
    dsimp only
    rw [List.map_map]
    rfl
  refine ⟨?_, ?_, ?_⟩
  · rw [Routes.snapshot]
    dsimp only
    rw [List.length_map]
    exact le_trans (List.length_filter_le _ _) h.size
  · intro row hmem
    obtain ⟨old, hold, rfl⟩ := List.mem_map.1 hmem
    have hrow := List.mem_of_mem_filter hold
    obtain ⟨hlo, hpos, hle, hhi⟩ := hread old.1
    have hfirst := exact_rate (h.row old hrow) hlo hpos
    exact ((exact_advance hfirst hle).exact (by omega)).mono hhi
  · intro key hkey hit hhit
    rw [hkeys] at hkey
    obtain ⟨hlo, hpos, hle, hhi⟩ := hread key
    by_cases hold : key ∈ r.rows.map Prod.fst
    · obtain ⟨row, hmem, rfl⟩ := List.mem_map.1 hold
      have hsilent : (row.2.rate (first row.1)).1 = 0 := by
        by_contra hrate
        exact hkey (List.mem_map_of_mem (List.mem_filter.2 ⟨hmem, by simpa using hrate⟩))
      have hout := out_of_silent (h.row row hmem) hlo hsilent hhit
      omega
    · have hout := h.gone key hold hit hhit
      omega

/-- **A snapshot is exact.** It reports each route with a request in the window once, with the number of
its requests and of those of each class. -/
theorem snapshot_exact {r : Routes} {lo : ℕ} {hist : List (Route × Hit)} {first second : Route → ℕ}
    (h : r.Kept lo hist) (hread : ∀ key, lo ≤ first key ∧ 0 < first key ∧ first key ≤ second key) :
    ((r.snapshot first second).1.map RouteRates.route).Nodup ∧
      (∀ key, key ∈ (r.snapshot first second).1.map RouteRates.route ↔
        0 < recent (first key) (hitsOf key hist)) ∧
      ∀ rates ∈ (r.snapshot first second).1,
        rates.rps = recent (first rates.route) (hitsOf rates.route hist) / seconds ∧
        ∀ k, rates.codes k =
          recentOf k (second rates.route) (hitsOf rates.route hist) / seconds := by
  have hperm : List.Perm (r.snapshot first second).1
      ((r.rows.filter fun row => (row.2.rate (first row.1)).1 ≠ 0).map fun row =>
        { route := row.1
          rps := (row.2.rate (first row.1)).1
          codes := ((row.2.rate (first row.1)).2.status (second row.1)).1 }) :=
    List.mergeSort_perm _ _
  have hroutes := hperm.map RouteRates.route
  rw [List.map_map] at hroutes
  refine ⟨?_, ?_, ?_⟩
  · exact hroutes.nodup_iff.2 (r.nodup.sublist (List.filter_sublist.map Prod.fst))
  · intro key
    rw [hroutes.mem_iff, List.mem_map]
    obtain ⟨hlo, hpos, -⟩ := hread key
    constructor
    · rintro ⟨row, hmem, rfl⟩
      obtain ⟨hrow, hrate⟩ := List.mem_filter.1 hmem
      rw [Nat.pos_iff_ne_zero]
      exact fun hzero =>
        of_decide_eq_true hrate ((rate_eq_zero_iff (h.row row hrow) hlo).2 hzero)
    · intro hsome
      -- A route without a row has no request in the window.
      have hold : key ∈ r.rows.map Prod.fst := by
        by_contra hgone
        refine hsome.ne' (List.countP_eq_zero.2 fun hit hhit => ?_)
        have hout := h.gone key hgone hit hhit
        simp only [decide_eq_true_eq, not_and]
        omega
      obtain ⟨row, hrow, rfl⟩ := List.mem_map.1 hold
      exact ⟨row, List.mem_filter.2 ⟨hrow, decide_eq_true fun hrate =>
        hsome.ne' ((rate_eq_zero_iff (h.row row hrow) hlo).1 hrate)⟩, rfl⟩
  · intro rates hmem
    obtain ⟨row, hlive, rfl⟩ := List.mem_map.1 (hperm.mem_iff.1 hmem)
    obtain ⟨hlo, hpos, hle⟩ := hread row.1
    have hexact := h.row row (List.mem_of_mem_filter hlive)
    exact ⟨rate_eq hexact hlo, (exact_advance (exact_rate hexact hlo hpos) hle).rates.2⟩

/-! ### Runs -/

/-- A call of a counter at a second of its clock. -/
inductive Asked
  | add (status : ℤ) (verdict : Bytes) (now : ℕ)
  | rate (now : ℕ)
  | status (now : ℕ)

def Asked.now : Asked → ℕ
  | .add _ _ now => now
  | .rate now => now
  | .status now => now

/-- The request that a call adds. -/
def Asked.hits : Asked → List Hit
  | .add code verdict now => [⟨now, classOf code verdict⟩]
  | .rate _ => []
  | .status _ => []

def Counter.step (c : Counter) : Asked → Counter
  | .add status verdict now => c.add status verdict now
  | .rate now => (c.rate now).2
  | .status now => (c.status now).2

/-- A clock of positive seconds that does not go back, from `lo` on. -/
def Ticks (lo : ℕ) : List Asked → Prop
  | [] => True
  | a :: as => lo ≤ a.now ∧ 0 < a.now ∧ Ticks a.now as

/-- The second of the last call. -/
def lastTick (lo : ℕ) (as : List Asked) : ℕ := (as.map Asked.now).getLastD lo

theorem exact_run {c : Counter} {lo : ℕ} {hs : List Hit} {as : List Asked} (h : c.Exact lo hs)
    (hticks : Ticks lo as) :
    (as.foldl Counter.step c).Exact (lastTick lo as) (hs ++ as.flatMap Asked.hits) := by
  induction as generalizing c lo hs with
  | nil => simpa [lastTick] using h
  | cons a as ih =>
    obtain ⟨hlo, hpos, hrest⟩ := hticks
    have hstep : (c.step a).Exact a.now (hs ++ a.hits) := by
      cases a with
      | add status verdict now => exact (right_add h hlo status verdict).exact hpos
      | rate now =>
        rw [Asked.hits, List.append_nil]
        exact exact_rate h hlo hpos
      | status now =>
        rw [Asked.hits, List.append_nil]
        exact exact_rate h hlo hpos
    have hlast : lastTick lo (a :: as) = lastTick a.now as := by
      simp only [lastTick, List.map_cons, List.getLastD_cons]
    rw [List.foldl_cons, List.flatMap_cons, ← List.append_assoc, hlast]
    exact ih hstep hrest

/-- A call of the routes with the readings of the clock it makes, all between `start` and `stop`. -/
inductive Called
  | add (key : Route) (status : ℤ) (verdict : Bytes) (read : Route → ℕ) (start now : ℕ)
  | snapshot (first second : Route → ℕ) (start stop : ℕ)

def Called.start : Called → ℕ
  | .add _ _ _ _ start _ => start
  | .snapshot _ _ start _ => start

def Called.stop : Called → ℕ
  | .add _ _ _ _ _ now => now
  | .snapshot _ _ _ stop => stop

/-- Within a call the clock is positive and does not go back. -/
def Called.Steady : Called → Prop
  | .add _ _ _ read start now =>
    (∀ key, start ≤ read key ∧ 0 < read key ∧ read key ≤ now) ∧ start ≤ now ∧ 0 < now
  | .snapshot first second start stop =>
    (∀ key, start ≤ first key ∧ 0 < first key ∧ first key ≤ second key ∧ second key ≤ stop) ∧
      start ≤ stop

/-- Nor does it between calls. -/
def Steadily (lo : ℕ) : List Called → Prop
  | [] => True
  | call :: calls => lo ≤ call.start ∧ call.Steady ∧ Steadily call.stop calls

/-- The table with the requests counted so far, and the number of calls of `Add` for a route that is
not empty. -/
structure Log where
  routes : Routes
  hist : List (Route × Hit)
  asked : ℕ

def Log.step (l : Log) : Called → Log
  | .add key status verdict read _ now =>
    let (routes, added) := l.routes.add key status verdict read now
    { routes := routes
      hist := l.hist ++ countedBy added key ⟨now, classOf status verdict⟩
      asked := if added = .empty then l.asked else l.asked + 1 }
  | .snapshot first second _ _ => { l with routes := (l.routes.snapshot first second).2 }

/-- The last reading of a run. -/
def lastStop (lo : ℕ) (calls : List Called) : ℕ := (calls.map Called.stop).getLastD lo

/-- What holds of a table and its log. -/
structure Log.Sound (l : Log) (lo max : ℕ) : Prop where
  kept : l.routes.Kept lo l.hist
  max : l.routes.max = max
  asked : l.hist.length + l.routes.dropped = l.asked

theorem dropped_add (r : Routes) (key : Route) (status : ℤ) (verdict : Bytes) (read : Route → ℕ)
    (now : ℕ) : (r.add key status verdict read now).1.dropped =
      if (r.add key status verdict read now).2 = .dropped then r.dropped + 1 else r.dropped := by
  rw [Routes.add]
  by_cases hempty : key.server = [] ∧ key.location = []
  · rw [if_pos hempty]
    rfl
  · rw [if_neg hempty]
    cases r.row key with
    | some c => rfl
    | none =>
      by_cases hfull : r.rows.length ≥ r.max
      · simp only [if_pos hfull]
        by_cases hfreed : (r.evictSilent read).2 = true
        · rw [if_pos hfreed]
          rfl
        · rw [if_neg hfreed]
          rfl
      · simp only [if_neg hfull]
        rfl

theorem sound_step {l : Log} {lo max : ℕ} {call : Called} (h : l.Sound lo max)
    (hlo : lo ≤ call.start) (hsteady : call.Steady) : (l.step call).Sound call.stop max := by
  cases call with
  | add key status verdict read start now =>
    obtain ⟨hread, hle, hpos⟩ := hsteady
    change lo ≤ start at hlo
    have hread' : ∀ key, lo ≤ read key ∧ 0 < read key ∧ read key ≤ now := fun key =>
      ⟨le_trans hlo (hread key).1, (hread key).2⟩
    obtain ⟨hkept, hmax⟩ :=
      kept_add h.kept hread' (le_trans hlo hle) hpos key status verdict
    have hdropped := dropped_add l.routes key status verdict read now
    have hasked := h.asked
    refine ⟨hkept, hmax.trans h.max, ?_⟩
    simp only [Log.step]
    generalize l.routes.add key status verdict read now = r at hdropped
    obtain ⟨r, added⟩ := r
    dsimp only at hdropped ⊢
    rw [hdropped, List.length_append]
    cases added with
    | empty => simpa [countedBy] using hasked
    | dropped =>
      simp [countedBy]
      omega
    | counted =>
      simp [countedBy]
      omega
  | snapshot first second start stop =>
    obtain ⟨hread, -⟩ := hsteady
    change lo ≤ start at hlo
    exact ⟨kept_snapshot h.kept fun key => ⟨le_trans hlo (hread key).1, (hread key).2⟩, h.max, h.asked⟩

theorem sound_run {l : Log} {lo max : ℕ} {calls : List Called} (h : l.Sound lo max)
    (hsteadily : Steadily lo calls) : (calls.foldl Log.step l).Sound (lastStop lo calls) max := by
  induction calls generalizing l lo with
  | nil => exact h
  | cons call calls ih =>
    obtain ⟨hlo, hsteady, hrest⟩ := hsteadily
    have hlast : lastStop lo (call :: calls) = lastStop call.stop calls := by
      simp only [lastStop, List.map_cons, List.getLastD_cons]
    rw [List.foldl_cons, hlast]
    exact ih (sound_step h hlo hsteady) hrest

/-- An empty table. -/
def Log.new (max : ℕ) : Log := ⟨Routes.new max, [], 0⟩

theorem sound_new (max : ℕ) : (Log.new max).Sound 0 max :=
  ⟨⟨Nat.zero_le _, fun _ hmem => absurd hmem (List.not_mem_nil), fun _ _ _ hmem =>
    absurd hmem (List.not_mem_nil)⟩, rfl, rfl⟩

/-- The code counts and adds up in words of 64 bits. No sum overflows, nor does a slot, while fewer than
2⁶⁴ requests are in the window. -/
theorem sums_fit {as : List Asked} {now : ℕ} (hticks : Ticks 0 as) (hlast : lastTick 0 as ≤ now)
    (hfew : recent now (as.flatMap Asked.hits) < 2 ^ 64) :
    let c := (as.foldl Counter.step Counter.new).advance now
    ∑ i, c.total i < 2 ^ 64 ∧ ∀ k, ∑ i, c.cls k i < 2 ^ 64 := by
  have hnew : Counter.new.Exact 0 [] := Or.inl ⟨rfl, fun _ hmem => absurd hmem List.not_mem_nil⟩
  have hright := exact_advance (exact_run hnew hticks) hlast
  rw [List.nil_append] at hright
  refine ⟨?_, fun k => ?_⟩
  · rw [sum_of_counts hright.total, inWindow_times hright.total.past]
    exact hfew
  · rw [sum_of_counts (hright.cls k), timesOf, inWindow_times (hright.cls k).past]
    exact lt_of_le_of_lt (List.filter_sublist.countP_le) hfew

/-! ### Exactness -/

/-- The routes `a` and `b`. -/
def routeA : Route := ⟨[97], [], []⟩

def routeB : Route := ⟨[98], [], []⟩

/-- A table of one row: a request for `a`, one for `b` that finds no room, and one for `b` when `a` is
silent. -/
def turnover : List Called :=
  [.add routeA 200 [] (fun _ => 5) 5 5, .add routeB 404 [] (fun _ => 6) 6 6,
    .add routeB 404 [] (fun _ => 20) 20 20]

end Rps
