import CryptoAccounting.Ledger.Publish

/-!
# A fleet of ledger processes

Several processes of the ledger share one trades table: replicas behind a load balancer, the process that
follows after a restart, or both. Each of them is started with an empty portfolio and answers from its own
memory. What it does is what it would do alone with its own rows (`step_own`), so what holds of one instance
holds of each process of a fleet; together they have every row of the table, and no trade and no event
twice (`Fleet.Inv`).
-/

namespace CryptoAccounting
namespace Ledger

open Tables Transition

/-- The processes, the table they share, and the next result of `Uuid::new_v4`. A process that is not
started yet has taken no step, and one that has stopped takes none any more. -/
structure Fleet (N : ℕ) where
  procs : Fin N → Instance ℚ
  trades : List (TradeRow ℚ)
  nextId : Uuid

def Fleet.init (N : ℕ) : Fleet N where
  procs := fun _ => Instance.init
  trades := []
  nextId := 0

variable {N : ℕ} {num : ℚ → Option ℚ}

/-- A process, with the table as it is now. -/
def Fleet.view (f : Fleet N) (i : Fin N) : Instance ℚ :=
  { f.procs i with trades := f.trades, nextId := f.nextId }

/-- One process takes a step. -/
def Fleet.step (num : ℚ → Option ℚ) (f : Fleet N) (a : Fin N × Instance.Action ℚ) : Option (Fleet N) :=
  ((f.view a.1).step num a.2).map fun s =>
    { procs := Function.update f.procs a.1 s, trades := s.trades, nextId := s.nextId }

/-! ### One process alone -/

/-- The rows of the trades that this process has applied. -/
def ownRows (applied : List (Trade ℚ)) (rows : List (TradeRow ℚ)) : List (TradeRow ℚ) :=
  rows.filter fun row => row.id ∈ applied.map Trade.id

/-- The process with its own rows. -/
def Instance.own (s : Instance ℚ) : Instance ℚ := { s with trades := ownRows s.applied s.trades }

/-- A row with a new id is added to the process's own rows if the trade is its own. -/
theorem ownRows_insertTrade {applied : List (Trade ℚ)} {rows : List (TradeRow ℚ)} {row : TradeRow ℚ}
    (hnew : row.id ∉ rows.map TradeRow.id) : ownRows applied (insertTrade rows row) =
      ownRows applied rows ++ if row.id ∈ applied.map Trade.id then [row] else [] := by
  unfold ownRows
  rw [insertTrade, if_neg hnew, List.filter_append, List.filter_singleton]
  by_cases hown : row.id ∈ applied.map Trade.id
  · rw [if_pos hown, decide_eq_true hown, cond_true]
  · rw [if_neg hown, decide_eq_false hown, cond_false]

/-- The rows that are there are not those of a trade with a new id. -/
theorem ownRows_append {applied : List (Trade ℚ)} {t : Trade ℚ} {rows : List (TradeRow ℚ)}
    (hnew : ∀ row ∈ rows, row.id ≠ t.id) : ownRows (applied ++ [t]) rows = ownRows applied rows := by
  refine List.filter_congr fun row hrow => ?_
  simp [hnew row hrow]

/-- Only an insert reads or writes the table. -/
theorem step_frame (s : Instance ℚ) (rows : List (TradeRow ℚ)) {a : Instance.Action ℚ}
    (ha : ∀ id, a ≠ .save id) :
    Instance.step num { s with trades := rows } a =
      (s.step num a).map fun s' => { s' with trades := rows } := by
  cases a with
  | start req now =>
    unfold Instance.step
    dsimp only
    split
    · rfl
    · rfl
    · split_ifs
      · rfl
      · split <;> rfl
  | save id => exact absurd rfl (ha id)
  | saveFails id =>
    unfold Instance.step
    cases hc : s.calls id with
    | none => simp [hc]
    | some call => cases hw : call.written <;> simp [hc, hw, Instance.finish]
  | respond id now =>
    unfold Instance.step
    cases hc : s.calls id with
    | none => simp [hc]
    | some call => cases hw : call.written <;> simp [hc, hw, Instance.finish]
  | cancel id =>
    unfold Instance.step
    cases hc : s.calls id with
    | none => simp [hc]
    | some call => simp [hc, Instance.finish]

/-- A trade without a row of its own has no row at all. -/
theorem Instance.unwritten_of_own {s : Instance ℚ} (h : s.own.Inv num) {id : Uuid} {call : Call ℚ}
    (hc : s.calls id = some call) (hw : call.written = false) : ∀ row ∈ s.trades, row.id ≠ id := by
  rintro row hrow rfl
  obtain ⟨hid, hmem⟩ := h.call row.id call hc
  refine h.unwritten row.id call hc hw row (List.mem_filter.2 ⟨hrow, ?_⟩) rfl
  exact decide_eq_true (List.mem_map.2 ⟨call.trade, hmem, hid⟩)

/-- **A process does what it would do alone**, as long as its new ids are new to the table. -/
theorem step_own {s s' : Instance ℚ} {a : Instance.Action ℚ} (h : s.own.Inv num)
    (hrows : ∀ row ∈ s.trades, row.id < s.nextId) (hs : s.step num a = some s') :
    s.own.step num a = some s'.own := by
  have hframe : (∀ id, a ≠ .save id) →
      s.own.step num a = some { s' with trades := s.own.trades } := by
    intro ha
    rw [Instance.own, step_frame s _ ha, hs]
    rfl
  cases step_moves hs with
  | drawn req now => exact hframe (by simp)
  | panicked req now hvalid hp e he => exact hframe (by simp)
  | refused req now trade hid => exact hframe (by simp)
  | accepted req now t notionalValue realizedPnl events p hid hbuilt happ =>
    rw [hframe (by simp), Instance.own, Instance.own]
    dsimp only
    rw [ownRows_append fun row hrow => by rw [hid]; exact (hrows row hrow).ne]
  | saved id call row hc hw hrow =>
    -- The one step that reads the table: the id is new to all of its rows.
    obtain ⟨hid, hmem⟩ := h.call id call hc
    have hrid : row.id = id := (ofTrade_id hrow).trans hid
    have hnew : ∀ r ∈ s.trades, r.id ≠ row.id := hrid ▸ Instance.unwritten_of_own h hc hw
    have hnot : row.id ∉ s.trades.map TradeRow.id := by
      intro hr
      obtain ⟨r, hr, he⟩ := List.mem_map.1 hr
      exact hnew r hr he
    have hnot' : row.id ∉ (ownRows s.applied s.trades).map TradeRow.id := by
      intro hr
      obtain ⟨r, hr, he⟩ := List.mem_map.1 hr
      exact hnew r (List.mem_filter.1 hr).1 he
    have hown : row.id ∈ s.applied.map Trade.id := List.mem_map.2 ⟨call.trade, hmem, (ofTrade_id hrow).symm⟩
    simp only [Instance.step, Instance.own, hc, Option.bind_eq_bind, Option.bind_some, hw, hrow,
      ownRows_insertTrade hnot, if_pos hown]
    rw [insertTrade, if_neg hnot']
    rfl
  | rejected id call hc hw hrow =>
    simp [Instance.step, Instance.own, Instance.finish, hc, hw, hrow]
  | failed id call hc hw => exact hframe (by simp)
  | responded id now call hc hw => exact hframe (by simp)
  | cancelled id call hc => exact hframe (by simp)

/-- What a step adds: its ids are new, and a new row is that of a trade the process has applied. -/
structure Adds (s s' : Instance ℚ) : Prop where
  nextId : s.nextId ≤ s'.nextId
  applied : ∀ t ∈ s'.applied, t ∈ s.applied ∨ t.id = s.nextId
  kept : ∀ t ∈ s.applied, t ∈ s'.applied
  spawned : ∀ e ∈ s'.spawned, e ∈ s.spawned ∨ e.eventId = s.nextId
  trades : s'.trades = s.trades ∨ ∃ row, row.id ∈ s.applied.map Trade.id ∧
    row.id ∉ s.trades.map TradeRow.id ∧ s'.trades = s.trades ++ [row]

/-- A step that draws an id at most. -/
theorem Adds.of_eq {s s' : Instance ℚ} (hnext : s.nextId ≤ s'.nextId) (happlied : s'.applied = s.applied)
    (hspawned : s'.spawned = s.spawned) (htrades : s'.trades = s.trades) : Adds s s' where
  nextId := hnext
  applied _ ht := .inl (happlied ▸ ht)
  kept _ ht := happlied.symm ▸ ht
  spawned _ he := .inl (hspawned ▸ he)
  trades := .inl htrades

theorem step_adds {s s' : Instance ℚ} {a : Instance.Action ℚ} (h : s.own.Inv num)
    (hs : s.step num a = some s') : Adds s s' := by
  cases step_moves hs with
  | drawn req now => exact .of_eq (Nat.le_succ _) rfl rfl rfl
  | panicked req now hvalid hp e he => exact .of_eq (Nat.le_succ _) rfl rfl rfl
  | refused req now trade hid => exact .of_eq (Nat.le_succ _) rfl rfl rfl
  | accepted req now t notionalValue realizedPnl events p hid hbuilt happ =>
    refine ⟨Nat.le_succ _, fun u hu => ?_, fun u hu => List.mem_append_left _ hu, fun _ => .inl, .inl rfl⟩
    rcases List.mem_append.1 hu with hu | hu
    · exact .inl hu
    · rw [List.mem_singleton.1 hu]
      exact .inr hid
  | saved id call row hc hw hrow =>
    obtain ⟨hid, hmem⟩ := h.call id call hc
    have hnot : row.id ∉ s.trades.map TradeRow.id := by
      intro hr
      obtain ⟨r, hr, he⟩ := List.mem_map.1 hr
      exact Instance.unwritten_of_own h hc hw r hr (he.trans ((ofTrade_id hrow).trans hid))
    refine ⟨le_refl _, fun _ => .inl, fun _ ht => ht, fun _ => .inl, .inr ⟨row, ?_, hnot, if_neg hnot⟩⟩
    exact List.mem_map.2 ⟨call.trade, hmem, (ofTrade_id hrow).symm⟩
  | rejected id call hc hw hrow => exact .of_eq (le_refl _) rfl rfl rfl
  | failed id call hc hw => exact .of_eq (le_refl _) rfl rfl rfl
  | responded id now call hc hw =>
    refine ⟨Nat.le_succ _, fun _ => .inl, fun _ ht => ht, fun e he => ?_, .inl rfl⟩
    rcases List.mem_append.1 he with he | he
    · exact .inl he
    · rw [List.mem_singleton.1 he]
      exact .inr rfl
  | cancelled id call hc => exact .of_eq (le_refl _) rfl rfl rfl

/-! ### The fleet -/

/-- Ids that others draw are not missed. -/
theorem Instance.Inv.later {s : Instance ℚ} (h : s.Inv num) {n : Uuid} (hn : s.nextId ≤ n) :
    Instance.Inv num { s with nextId := n } where
  built := h.built
  replay := h.replay
  fresh t ht := (h.fresh t ht).trans_le hn
  nodup := h.nodup
  call := h.call
  unwritten := h.unwritten
  row := h.row
  rows_nodup := h.rows_nodup
  ok := h.ok
  err t ht := ⟨(h.err t ht).1.trans_le hn, (h.err t ht).2⟩

/-- What holds of each process alone. -/
structure Instance.Sound (num : ℚ → Option ℚ) (s : Instance ℚ) : Prop where
  inv : s.Inv num
  applied : s.Applied
  published : s.Published

theorem Instance.Sound.later {s : Instance ℚ} (h : s.Sound num) {n : Uuid} (hn : s.nextId ≤ n) :
    Instance.Sound num { s with nextId := n } where
  inv := h.inv.later hn
  applied := h.applied
  published := h.published.keep (fun _ ht => ht) (fun _ _ hc => hc) rfl hn

theorem Instance.Sound.step {s s' : Instance ℚ} {a : Instance.Action ℚ} (h : s.Sound num)
    (hs : s.step num a = some s') : s'.Sound num where
  inv := h.inv.step hs
  applied := h.applied.step hs
  published := h.published.step h.inv hs

/-- What holds of the processes one by one, and of what they share. -/
structure Fleet.Inv (num : ℚ → Option ℚ) (f : Fleet N) : Prop where
  sound : ∀ i, (f.view i).own.Sound num
  rows : ∀ row ∈ f.trades, ∃ i, row.id ∈ (f.procs i).applied.map Trade.id
  rows_nodup : (f.trades.map TradeRow.id).Nodup
  trades : ∀ i j, i ≠ j → ∀ t ∈ (f.procs i).applied, ∀ u ∈ (f.procs j).applied, t.id ≠ u.id
  events : ∀ i j, i ≠ j → ∀ d ∈ (f.procs i).spawned, ∀ e ∈ (f.procs j).spawned,
    d.eventId ≠ e.eventId

theorem Fleet.inv_init : (Fleet.init N).Inv num where
  sound _ := ⟨Instance.inv_init, Instance.applied_init, Instance.published_init⟩
  rows row hrow := by cases hrow
  rows_nodup := List.nodup_nil
  trades i j _ t ht := by cases ht
  events i j _ d hd := by cases hd

variable {f f' : Fleet N}

theorem Fleet.Inv.row_lt (h : f.Inv num) {row : TradeRow ℚ} (hrow : row ∈ f.trades) :
    row.id < f.nextId := by
  obtain ⟨i, hi⟩ := h.rows row hrow
  obtain ⟨t, ht, he⟩ := List.mem_map.1 hi
  exact he ▸ (h.sound i).inv.fresh t ht

/-- The step of one process. -/
theorem Fleet.step_eq {a : Fin N × Instance.Action ℚ} (hs : f.step num a = some f') :
    ∃ s, (f.view a.1).step num a.2 = some s ∧ f'.view a.1 = s ∧
      (∀ j, j ≠ a.1 → f'.procs j = f.procs j) ∧ f'.procs a.1 = s ∧ f'.trades = s.trades ∧
      f'.nextId = s.nextId := by
  obtain ⟨s, hstep, rfl⟩ := Option.map_eq_some_iff.1 hs
  refine ⟨s, hstep, ?_, fun j hj => Function.update_of_ne hj .., Function.update_self .., rfl, rfl⟩
  simp [Fleet.view]

/-- A row of another process is not among the own rows. -/
theorem ownRows_other {s s' : Instance ℚ} (hadds : Adds s s') {applied : List (Trade ℚ)}
    (hother : ∀ t ∈ s.applied, ∀ u ∈ applied, t.id ≠ u.id) :
    ownRows applied s'.trades = ownRows applied s.trades := by
  rcases hadds.trades with hsame | ⟨row, hrow, -, hnew⟩
  · rw [hsame]
  · obtain ⟨t, ht, he⟩ := List.mem_map.1 hrow
    have hnot : row.id ∉ applied.map Trade.id := by
      intro hr
      obtain ⟨u, hu, hue⟩ := List.mem_map.1 hr
      exact hother t ht u hu (he.trans hue.symm)
    rw [hnew, ownRows, List.filter_append, List.filter_singleton, decide_eq_false hnot, cond_false,
      List.append_nil, ownRows]

/-- Distinct ids stay distinct if one process adds new ones. -/
theorem ne_of_adds {α : Type} {id : α → Uuid} {n : Uuid} {l l' m : List α}
    (hl : ∀ x ∈ l', x ∈ l ∨ id x = n) (hm : ∀ y ∈ m, id y < n)
    (hne : ∀ x ∈ l, ∀ y ∈ m, id x ≠ id y) : ∀ x ∈ l', ∀ y ∈ m, id x ≠ id y := by
  intro x hx y hy
  rcases hl x hx with hx | hx
  · exact hne x hx y hy
  · rw [hx]
    exact (hm y hy).ne'

/-- A relation between every two processes, after one of them has changed. -/
theorem pairwise_update {P : Instance ℚ → Instance ℚ → Prop} (hsymm : ∀ s t, P s t → P t s) {i : Fin N}
    (hother : ∀ j, j ≠ i → f'.procs j = f.procs j) (h : ∀ j k, j ≠ k → P (f.procs j) (f.procs k))
    (hi : ∀ j, j ≠ i → P (f'.procs i) (f.procs j)) : ∀ j k, j ≠ k → P (f'.procs j) (f'.procs k) := by
  intro j k hjk
  by_cases hj : j = i
  · subst hj
    rw [hother k (Ne.symm hjk)]
    exact hi k (Ne.symm hjk)
  · by_cases hk : k = i
    · subst hk
      rw [hother j hj]
      exact hsymm _ _ (hi j hj)
    · rw [hother j hj, hother k hk]
      exact h j k hjk

theorem Fleet.Inv.step {a : Fin N × Instance.Action ℚ} (h : f.Inv num)
    (hs : f.step num a = some f') : f'.Inv num := by
  obtain ⟨s, hstep, hview, hother, hproc, htrades, hnext⟩ := Fleet.step_eq hs
  have hown := h.sound a.1
  have hadds := step_adds hown.inv hstep
  have happlied : s.applied = (f'.procs a.1).applied := by rw [hproc]
  refine ⟨fun j => ?_, fun row hrow => ?_, ?_, ?_, ?_⟩
  -- For the other processes ids go by, and rows that are not theirs.
  · by_cases hj : j = a.1
    · subst hj
      rw [hview]
      exact hown.step (step_own hown.inv (fun row hrow => h.row_lt hrow) hstep)
    · have hsame : (f'.view j).own = { (f.view j).own with nextId := s.nextId } := by
        have hrows := ownRows_other hadds (h.trades a.1 j (Ne.symm hj))
        rw [Instance.own, Fleet.view, hother j hj, htrades, hnext]
        exact congrArg (fun rows => { f.procs j with trades := rows, nextId := s.nextId }) hrows
      rw [hsame]
      exact (h.sound j).later hadds.nextId
  · rw [htrades] at hrow
    have hkept : ∀ i, row.id ∈ (f.procs i).applied.map Trade.id →
        ∃ i, row.id ∈ (f'.procs i).applied.map Trade.id := by
      intro i hi
      refine ⟨i, ?_⟩
      by_cases hia : i = a.1
      · subst hia
        obtain ⟨t, ht, he⟩ := List.mem_map.1 hi
        rw [← happlied]
        exact List.mem_map.2 ⟨t, hadds.kept t ht, he⟩
      · rw [hother i hia]
        exact hi
    rcases hadds.trades with hold | ⟨new, hnew, -, hold⟩
    · rw [hold] at hrow
      obtain ⟨i, hi⟩ := h.rows row hrow
      exact hkept i hi
    · rw [hold] at hrow
      rcases List.mem_append.1 hrow with hrow | hrow
      · obtain ⟨i, hi⟩ := h.rows row hrow
        exact hkept i hi
      · rw [List.mem_singleton.1 hrow] at hkept ⊢
        exact hkept a.1 hnew
  · rw [htrades]
    rcases hadds.trades with hold | ⟨new, -, hnot, hold⟩
    · rw [hold]
      exact h.rows_nodup
    · rw [hold, List.map_append]
      exact nodup_snoc h.rows_nodup hnot
  · refine pairwise_update (P := fun s t => ∀ x ∈ s.applied, ∀ y ∈ t.applied, x.id ≠ y.id)
      (fun s t hst x hx y hy => (hst y hy x hx).symm) hother h.trades fun j hj => ?_
    rw [hproc]
    exact ne_of_adds hadds.applied (fun u hu => (h.sound j).inv.fresh u hu)
      (h.trades a.1 j (Ne.symm hj))
  · refine pairwise_update (P := fun s t => ∀ x ∈ s.spawned, ∀ y ∈ t.spawned, x.eventId ≠ y.eventId)
      (fun s t hst x hx y hy => (hst y hy x hx).symm) hother h.events fun j hj => ?_
    rw [hproc]
    exact ne_of_adds hadds.spawned (fun e he => (h.sound j).published.fresh e he)
      (h.events a.1 j (Ne.symm hj))

theorem run_fleet {as : List (Fin N × Instance.Action ℚ)}
    (hf : run (Fleet.step num) (Fleet.init N) as = some f) : f.Inv num :=
  run_invariant (Fleet.Inv num) (fun _ _ _ h hs => h.step hs) Fleet.inv_init hf

/-- The step is one of a call that goes all the way. -/
def Fleet.Succeeds (num : ℚ → Option ℚ) (f : Fleet N) (a : Fin N × Instance.Action ℚ) : Prop :=
  Ledger.Succeeds num (f.procs a.1) a.2

instance (num : ℚ → Option ℚ) (f : Fleet N) (a : Fin N × Instance.Action ℚ) :
    Decidable (f.Succeeds num a) :=
  inferInstanceAs (Decidable (Ledger.Succeeds num (f.procs a.1) a.2))

/-- Where every save succeeds and nobody drops a call, every applied trade has a call under way, or its
event. -/
theorem run_served {as : List (Fin N × Instance.Action ℚ)}
    (hf : run (Fleet.step num) (Fleet.init N) as = some f)
    (hsucceeds : EveryStep (Fleet.step num) (Fleet.Succeeds num) (Fleet.init N) as) :
    ∀ i, (f.procs i).Served := by
  have hall := everyState_of_everyStep (fun f : Fleet N => f.Inv num ∧ ∀ i, (f.procs i).Served)
    (fun f a f' hI ha hs => ?_) ⟨Fleet.inv_init, fun i t ht => by cases ht⟩ hsucceeds
  · exact (hall.last hf).2
  · obtain ⟨hinv, hserved⟩ := hI
    refine ⟨hinv.step hs, fun j => ?_⟩
    obtain ⟨s, hstep, -, hother, hproc, -⟩ := Fleet.step_eq hs
    by_cases hj : j = a.1
    · subst hj
      have hown := (hinv.sound a.1).inv
      have hstep' := step_own hown (fun row hrow => hinv.row_lt hrow) hstep
      have hserved' : (f.view a.1).own.Served := hserved a.1
      have hsucceeds' : Ledger.Succeeds num (f.view a.1).own a.2 := by
        obtain ⟨i, a⟩ := a
        cases a <;> exact ha
      have hserved_own : s.own.Served := hserved'.step hown hsucceeds' hstep'
      rw [hproc]
      exact hserved_own
    · rw [hother j hj]
      exact hserved j

/-- All events that were handed to the producers. -/
def Fleet.published (f : Fleet N) : List (TradeEvent ℚ) :=
  (List.finRange N).flatMap fun i => (f.procs i).spawned

theorem Fleet.mem_published {e : TradeEvent ℚ} : e ∈ f.published ↔ ∃ i, e ∈ (f.procs i).spawned := by
  simp [Fleet.published]

/-- Lists without duplicates and without a common element have no duplicates together. -/
theorem nodup_flatMap_of_ne {α : Type} {l : Fin N → List α} {id : α → Uuid}
    (hl : ∀ i, ((l i).map id).Nodup) (hne : ∀ i j, i ≠ j → ∀ x ∈ l i, ∀ y ∈ l j, id x ≠ id y) :
    (((List.finRange N).flatMap l).map id).Nodup := by
  rw [List.map_flatMap, List.nodup_flatMap]
  refine ⟨fun i _ => hl i, (List.nodup_finRange N).imp fun hij => ?_⟩
  intro x hx hy
  obtain ⟨u, hu, rfl⟩ := List.mem_map.1 hx
  obtain ⟨v, hv, he⟩ := List.mem_map.1 hy
  exact hne _ _ hij u hu v hv he.symm

theorem Fleet.Inv.published_nodup (h : f.Inv num) :
    (f.published.map TradeEvent.eventId).Nodup ∧ (f.published.map TradeEvent.tradeId).Nodup := by
  refine ⟨nodup_flatMap_of_ne (fun i => (h.sound i).published.event_nodup) h.events,
    nodup_flatMap_of_ne (fun i => (h.sound i).published.trade_nodup) fun i j hij d hd e he => ?_⟩
  obtain ⟨t, ht, htd, -⟩ := (h.sound i).published.trade d hd
  obtain ⟨u, hu, hue, -⟩ := (h.sound j).published.trade e he
  rw [htd.tradeId, hue.tradeId]
  exact h.trades i j hij t ht u hu

end Ledger
end CryptoAccounting
