import Mathlib.Algebra.Order.BigOperators.Group.Finset
import Radiata.Session.Table

/-!
# Simultaneous dials

Two nodes open any number of connections to each other, and each registers every connection once
in its own order.  A registration either takes the place of the entry there is, which retires
that entry's connection, or is refused.  A connection that a node retired or refused is closed,
and the other node's session over it ends as well.

A node decides from its own table, so the outcome depends on the two orders.  The rule of crossed
dials makes both nodes prefer one direction, but among connections of that direction each keeps
the one it registered last.  The nodes converge in every interleaving exactly when those are the
same connection.
-/

namespace Radiata.Session

open SessionTable (alive_cleanup alive_kill_of_ne alive_retire_of_ne entries_insert_self
  entries_of_cleanup entries_retire)
open Function (update_of_ne update_self)

inductive Party where
  | left
  | right
deriving DecidableEq

instance : Fintype Party := ⟨{.left, .right}, fun p => by cases p <;> decide⟩

def Party.other : Party → Party
  | .left => .right
  | .right => .left

structure Dialing (κ : Type) where
  node : Party → NodeId
  distinct : node .left ≠ node .right
  dialer : κ → Party

inductive Service where
  | idle
  | serving
  | ending
  | over
deriving DecidableEq

structure DialSide (κ : Type) where
  table : SessionTable κ
  stage : κ → Service
  order : List κ

section

variable {κ : Type} [DecidableEq κ]

namespace DialSide

variable (side : DialSide κ) (localNode peer : NodeId) (c : κ)

def register (direction : DialDirection) : DialSide κ :=
  if side.table.replaces localNode peer direction = true then
    { table := (side.table.insert peer c direction).retire (side.table.entries peer)
      stage := Function.update side.stage c .serving
      order := side.order ++ [c] }
  else
    { table := side.table.kill c
      stage := Function.update side.stage c .over
      order := side.order ++ [c] }

def finish : DialSide κ :=
  { side with table := side.table.kill c, stage := Function.update side.stage c .ending }

def clean : DialSide κ :=
  { side with table := side.table.cleanup peer, stage := Function.update side.stage c .over }

end DialSide

namespace Dialing

variable (d : Dialing κ)

def direction (p : Party) (c : κ) : DialDirection :=
  if d.dialer c = p then .outgoing else .incoming

def owned (c : κ) : Bool := decide (d.node (d.dialer c) < d.node (d.dialer c).other)

/-- The connections that a registration never refuses: those of the smaller node, or all of them
when it dialed none. -/
def Preferred (c : κ) : Prop := d.owned c = true ∨ ∀ other, d.owned other = false

end Dialing

abbrev DialWorld (κ : Type) := Party → DialSide κ

inductive DialStep (d : Dialing κ) (w : DialWorld κ) : DialWorld κ → Prop
  | registers (p : Party) (c : κ) (stage : (w p).stage c = .idle) :
      DialStep d w (Function.update w p
        ((w p).register (d.node p) (d.node p.other) c (d.direction p c)))
  | ends (p : Party) (c : κ) (stage : (w p).stage c = .serving)
      (reason : (w p).table.alive c = false ∨ (w p.other).stage c = .over) :
      DialStep d w (Function.update w p ((w p).finish c))
  | cleans (p : Party) (c : κ) (stage : (w p).stage c = .ending) :
      DialStep d w (Function.update w p ((w p).clean (d.node p.other) c))

omit [DecidableEq κ] in
def DialWorld.start : DialWorld κ :=
  fun _ => ⟨⟨fun _ => none, fun _ => true⟩, fun _ => .idle, []⟩

inductive DialReachable (d : Dialing κ) : DialWorld κ → Prop
  | start : DialReachable d DialWorld.start
  | step (w w' : DialWorld κ) (reached : DialReachable d w) (next : DialStep d w w') :
      DialReachable d w'

def Settled (d : Dialing κ) (w : DialWorld κ) : Prop := ∀ w', ¬ DialStep d w w'

omit [DecidableEq κ] in
def Converged (d : Dialing κ) (w : DialWorld κ) : Prop :=
  ∃ c, ∀ p : Party, ∃ entry, (w p).table.entries (d.node p.other) = some entry ∧
    entry.connection = c ∧ (w p).table.alive c = true

lemma settled_of_over {d : Dialing κ} {w : DialWorld κ}
    (h : ∀ p c, (w p).stage c = .over) : Settled d w := by
  intro w' step
  cases step with
  | registers p c stage | ends p c stage | cleans p c stage =>
    rw [h p c] at stage
    cases stage

/-! ## The rule from both sides -/

namespace Dialing

variable {d : Dialing κ} {p : Party} {c : κ}

omit [DecidableEq κ] in
lemma keepConnection_direction :
    keepConnection (d.node p) (d.node p.other) (d.direction p c) = d.owned c := by
  unfold direction owned
  by_cases h : d.dialer c = p
  · rw [if_pos h, h]
    rfl
  · rw [if_neg h]
    have hp : d.dialer c = p.other := by
      cases p <;> cases hd : d.dialer c <;> first | rfl | exact absurd hd h
    rw [hp]
    cases p <;> rfl

variable {table : SessionTable κ}

omit [DecidableEq κ] in
lemma Preferred.replaces (h : d.Preferred c)
    (directed : ∀ entry, table.entries (d.node p.other) = some entry → entry.direction =
      d.direction p entry.connection) :
    table.replaces (d.node p) (d.node p.other) (d.direction p c) = true := by
  unfold SessionTable.replaces
  split
  · rfl
  · rename_i previous hprevious
    rw [directed previous hprevious, keepConnection_direction, keepConnection_direction]
    rcases h with howned | hnone
    · simp [howned]
    · simp [hnone]

omit [DecidableEq κ] in
lemma Preferred.refuses {entry : SessionEntry κ} (h : d.Preferred entry.connection)
    (hentry : table.entries (d.node p.other) = some entry)
    (directed : entry.direction = d.direction p entry.connection)
    (alive : table.alive entry.connection = true) (hc : ¬ d.Preferred c) :
    table.replaces (d.node p) (d.node p.other) (d.direction p c) = false := by
  have howned : d.owned entry.connection = true := by
    refine h.resolve_right fun hnone => hc (.inr hnone)
  have hother : d.owned c = false := by
    rw [Bool.eq_false_iff]
    exact fun h => hc (.inl h)
  unfold SessionTable.replaces
  rw [hentry]
  dsimp only
  rw [directed, keepConnection_direction, keepConnection_direction, alive, howned, hother]
  rfl

end Dialing

/-! ## One side -/

/-- The entry names a registered connection and its direction, and what is not registered was
never killed. -/
structure DialSide.Sound (d : Dialing κ) (p : Party) (side : DialSide κ) : Prop where
  directed : ∀ entry, side.table.entries (d.node p.other) = some entry →
    entry.direction = d.direction p entry.connection ∧ side.stage entry.connection ≠ .idle
  fresh : ∀ c, side.stage c = .idle → side.table.alive c = true
  registered : ∀ c, c ∈ side.order ↔ side.stage c ≠ .idle

structure DialSide.Holds (d : Dialing κ) (p : Party) (side : DialSide κ) (c : κ) : Prop where
  entry : ∃ entry, side.table.entries (d.node p.other) = some entry ∧ entry.connection = c
  alive : side.table.alive c = true
  stage : side.stage c = .serving

namespace DialSide

variable {d : Dialing κ} {p : Party} {side : DialSide κ} {c x : κ}

variable {localNode peer : NodeId} {direction : DialDirection}

@[simp] lemma order_register :
    (side.register localNode peer c direction).order = side.order ++ [c] := by
  unfold register
  split_ifs <;> rfl

lemma register_of_replaces (h : side.table.replaces localNode peer direction = true) :
    side.register localNode peer c direction =
      ⟨(side.table.insert peer c direction).retire (side.table.entries peer),
        Function.update side.stage c .serving, side.order ++ [c]⟩ :=
  if_pos h

lemma register_of_refuses (h : side.table.replaces localNode peer direction = false) :
    side.register localNode peer c direction =
      ⟨side.table.kill c, Function.update side.stage c .over, side.order ++ [c]⟩ :=
  if_neg (by rw [h]; exact Bool.false_ne_true)

variable {stage : κ → Service} {order : List κ} {next : Service}

lemma registered_update (h : ∀ c, c ∈ order ↔ stage c ≠ .idle) (hnext : next ≠ .idle) (y : κ) :
    y ∈ order ++ [x] ↔ Function.update stage x next y ≠ .idle := by
  rw [List.mem_append, List.mem_singleton]
  by_cases heq : y = x
  · subst heq
    rw [update_self]
    exact iff_of_true (.inr rfl) hnext
  · rw [update_of_ne heq, ← h y]
    exact or_iff_left heq

lemma update_ne_idle {y : κ} (h : stage y ≠ .idle) (hnext : next ≠ .idle) :
    Function.update stage x next y ≠ .idle := by
  by_cases heq : y = x
  · subst heq
    rw [update_self]
    exact hnext
  · rw [update_of_ne heq]
    exact h

lemma idle_of_update {y : κ} (h : Function.update stage x next y = .idle) (hnext : next ≠ .idle) :
    y ≠ x ∧ stage y = .idle := by
  by_cases heq : y = x
  · subst heq
    rw [update_self] at h
    exact absurd h hnext
  · rw [update_of_ne heq] at h
    exact ⟨heq, h⟩

omit [DecidableEq κ] in
lemma Sound.start : Sound d p (DialWorld.start p) where
  directed := nofun
  fresh := fun _ _ => rfl
  registered := fun _ => iff_of_false List.not_mem_nil fun h => h rfl

lemma Sound.register (h : side.Sound d p) :
    (side.register (d.node p) (d.node p.other) x (d.direction p x)).Sound d p := by
  cases hreplaces : side.table.replaces (d.node p) (d.node p.other) (d.direction p x) with
  | true =>
    rw [register_of_replaces hreplaces]
    refine ⟨?_, ?_, registered_update h.registered nofun⟩
    · intro entry hentry
      rw [entries_retire, entries_insert_self] at hentry
      obtain rfl := Option.some.inj hentry
      refine ⟨rfl, ?_⟩
      show Function.update side.stage x .serving x ≠ .idle
      rw [update_self]
      exact nofun
    · intro y hy
      obtain ⟨-, hidle⟩ := idle_of_update hy nofun
      -- the displaced entry was registered, so it is not the idle connection
      rw [alive_retire_of_ne]
      · exact h.fresh y hidle
      · rintro previous hprevious rfl
        exact (h.directed previous hprevious).2 hidle
  | false =>
    rw [register_of_refuses hreplaces]
    refine ⟨?_, ?_, registered_update h.registered nofun⟩
    · intro entry hentry
      obtain ⟨hdirection, hstage⟩ := h.directed entry hentry
      exact ⟨hdirection, update_ne_idle hstage nofun⟩
    · intro y hy
      obtain ⟨hne, hidle⟩ := idle_of_update hy nofun
      exact (alive_kill_of_ne hne).trans (h.fresh y hidle)

lemma registered_move (h : ∀ c, c ∈ order ↔ stage c ≠ .idle) (hx : stage x ≠ .idle)
    (hnext : next ≠ .idle) (y : κ) : y ∈ order ↔ Function.update stage x next y ≠ .idle := by
  rw [h y]
  exact ⟨fun hy => update_ne_idle hy hnext, fun hy hidle => hy (by
    by_cases heq : y = x
    · exact absurd (heq ▸ hidle) hx
    · rw [update_of_ne heq, hidle])⟩

lemma Sound.finish (h : side.Sound d p) (hx : side.stage x ≠ .idle) :
    (side.finish x).Sound d p where
  directed := fun entry hentry =>
    ⟨(h.directed entry hentry).1, update_ne_idle (h.directed entry hentry).2 nofun⟩
  fresh := by
    intro y hy
    obtain ⟨hne, hidle⟩ := idle_of_update hy nofun
    exact (alive_kill_of_ne hne).trans (h.fresh y hidle)
  registered := registered_move h.registered hx nofun

lemma Sound.clean (h : side.Sound d p) (hx : side.stage x ≠ .idle) :
    (side.clean (d.node p.other) x).Sound d p where
  directed := by
    intro entry hentry
    obtain ⟨hdirection, hstage⟩ := h.directed entry (entries_of_cleanup hentry)
    exact ⟨hdirection, update_ne_idle hstage nofun⟩
  fresh := by
    intro y hy
    obtain ⟨-, hidle⟩ := idle_of_update hy nofun
    exact (congrFun alive_cleanup y).trans (h.fresh y hidle)
  registered := registered_move h.registered hx nofun

lemma Sound.holds_register (h : side.Sound d p) (hx : side.stage x = .idle)
    (preferred : d.Preferred x) :
    (side.register (d.node p) (d.node p.other) x (d.direction p x)).Holds d p x := by
  rw [register_of_replaces (preferred.replaces fun entry hentry => (h.directed entry hentry).1)]
  refine ⟨⟨⟨x, d.direction p x, side.table.nextGeneration (d.node p.other)⟩, ?_, rfl⟩, ?_,
    update_self _ _ _⟩
  · rw [entries_retire, entries_insert_self]
  · rw [alive_retire_of_ne]
    · exact h.fresh x hx
    · rintro previous hprevious rfl
      exact (h.directed previous hprevious).2 hx

/-- A preferred connection that is held stays held when another that is not preferred is
registered. -/
theorem Holds.register (h : side.Holds d p c) (sound : side.Sound d p) (preferred : d.Preferred c)
    (hx : ¬ d.Preferred x) :
    (side.register (d.node p) (d.node p.other) x (d.direction p x)).Holds d p c := by
  have hne : c ≠ x := by
    rintro rfl
    exact hx preferred
  obtain ⟨entry, hentry, rfl⟩ := h.entry
  rw [register_of_refuses
    (preferred.refuses hentry (sound.directed entry hentry).1 h.alive hx)]
  exact ⟨⟨entry, hentry, rfl⟩, (alive_kill_of_ne hne).trans h.alive,
    (update_of_ne hne _ _).trans h.stage⟩

lemma Holds.finish (h : side.Holds d p c) (hne : c ≠ x) : (side.finish x).Holds d p c where
  entry := h.entry
  alive := (alive_kill_of_ne hne).trans h.alive
  stage := (update_of_ne hne _ _).trans h.stage

lemma Holds.clean (h : side.Holds d p c) (hne : c ≠ x) :
    (side.clean (d.node p.other) x).Holds d p c := by
  obtain ⟨entry, hentry, rfl⟩ := h.entry
  refine ⟨⟨entry, ?_, rfl⟩, ?_, (update_of_ne hne _ _).trans h.stage⟩
  · exact (congrArg (fun table => table.entries (d.node p.other))
      (SessionTable.cleanup_of_alive hentry h.alive)).trans hentry
  · exact (congrFun alive_cleanup _).trans h.alive

end DialSide

/-! ## Runs -/

section Runs

variable {d : Dialing κ} {w w' : DialWorld κ} {c : κ}

lemma DialStep.sound (step : DialStep d w w') (h : ∀ p, (w p).Sound d p) (p : Party) :
    (w' p).Sound d p := by
  cases step with
  | registers q x =>
    rcases eq_or_ne p q with rfl | hne
    · rw [update_self]
      exact (h p).register
    · rw [update_of_ne hne]
      exact h p
  | ends q x stage =>
    rcases eq_or_ne p q with rfl | hne
    · rw [update_self]
      exact (h p).finish (by rw [stage]; exact nofun)
    · rw [update_of_ne hne]
      exact h p
  | cleans q x stage =>
    rcases eq_or_ne p q with rfl | hne
    · rw [update_self]
      exact (h p).clean (by rw [stage]; exact nofun)
    · rw [update_of_ne hne]
      exact h p

lemma DialReachable.sound (h : DialReachable d w) : ∀ p, (w p).Sound d p := by
  induction h with
  | start => exact fun _ => .start
  | step w w' _ next ih => exact next.sound ih

end Runs

section Orders

variable [Fintype κ] {d : Dialing κ} {w w' : DialWorld κ} {c : κ}

instance (d : Dialing κ) (c : κ) : Decidable (d.Preferred c) :=
  inferInstanceAs (Decidable (_ ∨ _))

def Dialing.latest (d : Dialing κ) (order : List κ) : Option κ :=
  (order.filter fun c => decide (d.Preferred c)).getLast?

variable {order : List κ}

omit [DecidableEq κ] in
lemma Dialing.latest_concat_of_preferred (h : d.Preferred c) :
    d.latest (order ++ [c]) = some c := by
  rw [latest, List.filter_append, List.filter_singleton, decide_eq_true h]
  exact List.getLast?_concat

omit [DecidableEq κ] in
lemma Dialing.latest_concat_of_not (h : ¬ d.Preferred c) :
    d.latest (order ++ [c]) = d.latest order := by
  rw [latest, List.filter_append, List.filter_singleton, decide_eq_false h]
  exact congrArg List.getLast? (List.append_nil _)

omit [DecidableEq κ] in
lemma Dialing.preferred_of_latest (h : d.latest order = some c) : d.Preferred c :=
  of_decide_eq_true (List.mem_filter.mp (List.mem_of_getLast? h)).2

omit [DecidableEq κ] in
lemma Dialing.mem_of_latest (h : d.latest order = some c) : c ∈ order :=
  (List.mem_filter.mp (List.mem_of_getLast? h)).1

omit [DecidableEq κ] in
lemma Dialing.exists_latest (every : ∀ c, c ∈ order) (c : κ) : ∃ a, d.latest order = some a := by
  obtain ⟨b, hb⟩ : ∃ b, d.Preferred b := by
    by_cases howned : ∃ b, d.owned b = true
    · exact howned.imp fun _ hb => .inl hb
    · exact ⟨c, .inr fun other => Bool.eq_false_iff.mpr fun h => howned ⟨other, h⟩⟩
  refine Option.isSome_iff_exists.mp ?_
  rw [latest, List.getLast?_isSome]
  exact List.ne_nil_of_mem (List.mem_filter.mpr ⟨every b, decide_eq_true hb⟩)

def Latest (d : Dialing κ) (c : κ) (w : DialWorld κ) : Prop :=
  ∀ p, c ∈ (w p).order → d.latest (w p).order = some c

lemma DialStep.latest (step : DialStep d w w') (sound : ∀ p, (w p).Sound d p)
    (h : Latest d c w') : Latest d c w := by
  intro p hc
  cases step with
  | registers q x stage =>
    rcases eq_or_ne p q with rfl | hne
    · have hlatest := h p
      rw [update_self, DialSide.order_register] at hlatest
      have hlast := hlatest (List.mem_append_left _ hc)
      by_cases hx : d.Preferred x
      · -- then `x` would be the last one, but it was not registered before
        rw [Dialing.latest_concat_of_preferred hx] at hlast
        obtain rfl := Option.some.inj hlast
        exact absurd stage (((sound p).registered x).mp hc)
      · rwa [Dialing.latest_concat_of_not hx] at hlast
    · have hlatest := h p
      rw [update_of_ne hne] at hlatest
      exact hlatest hc
  | ends q x | cleans q x =>
    have hlatest := h p
    rcases eq_or_ne p q with rfl | hne
    · rw [update_self] at hlatest
      exact hlatest hc
    · rw [update_of_ne hne] at hlatest
      exact hlatest hc

def Kept (d : Dialing κ) (c : κ) (w : DialWorld κ) : Prop :=
  ∀ p, (w p).stage c = .idle ∨ (w p).Holds d p c

variable {q : Party} {side : DialSide κ}

omit [DecidableEq κ] [Fintype κ] in
lemma Kept.update (h : Kept d c w)
    (hside : (w q).stage c = .idle ∨ (w q).Holds d q c → side.stage c = .idle ∨ side.Holds d q c) :
    Kept d c (Function.update w q side) := by
  intro p
  rcases eq_or_ne p q with rfl | hne
  · rw [update_self]
    exact hside (h p)
  · rw [update_of_ne hne]
    exact h p

omit [DecidableEq κ] [Fintype κ] in
lemma Kept.ne_over (h : Kept d c w) (p : Party) : (w p).stage c ≠ .over := by
  rcases h p with hidle | hholds
  · rw [hidle]
    exact nofun
  · rw [hholds.stage]
    exact nofun

lemma DialStep.kept (step : DialStep d w w') (sound : ∀ p, (w p).Sound d p)
    (preferred : d.Preferred c) (latest : Latest d c w') (h : Kept d c w) : Kept d c w' := by
  cases step with
  | registers q x stage =>
    apply h.update
    intro hbefore
    by_cases hcx : c = x
    · subst hcx
      exact .inr ((sound q).holds_register stage preferred)
    · rcases hbefore with hidle | hholds
      · refine .inl ?_
        have hnot : c ∉ (w q).order := fun hc => ((sound q).registered c).mp hc hidle
        by_contra hstage
        have hmem := (((sound q).register (x := x)).registered c).mpr hstage
        rw [DialSide.order_register, List.mem_append, List.mem_singleton] at hmem
        exact hmem.elim hnot hcx
      · refine .inr (hholds.register (sound q) preferred fun hx => hcx ?_)
        -- a preferred registration would be the last one
        have hc : c ∈ (w q).order :=
          ((sound q).registered c).mpr (by rw [hholds.stage]; exact nofun)
        have hlast := latest q
        rw [update_self, DialSide.order_register,
          Dialing.latest_concat_of_preferred hx] at hlast
        exact (Option.some.inj (hlast (List.mem_append_left _ hc))).symm
  | ends q x stage reason =>
    apply h.update
    have hne : c ≠ x := by
      rintro rfl
      rcases h q with hidle | hholds
      · rw [hidle] at stage
        cases stage
      · rcases reason with hdead | hclosed
        · rw [hholds.alive] at hdead
          cases hdead
        · exact h.ne_over q.other hclosed
    rintro (hidle | hholds)
    · exact .inl ((update_of_ne hne _ _).trans hidle)
    · exact .inr (hholds.finish hne)
  | cleans q x stage =>
    apply h.update
    have hne : c ≠ x := by
      rintro rfl
      rcases h q with hidle | hholds
      · rw [hidle] at stage
        cases stage
      · rw [hholds.stage] at stage
        cases stage
    rintro (hidle | hholds)
    · exact .inl ((update_of_ne hne _ _).trans hidle)
    · exact .inr (hholds.clean hne)

lemma DialReachable.kept (h : DialReachable d w) (preferred : d.Preferred c)
    (latest : Latest d c w) : Kept d c w := by
  induction h with
  | start => exact fun _ => .inl rfl
  | step w w' reached next ih =>
    exact next.kept reached.sound preferred latest (ih (next.latest reached.sound latest))

lemma DialReachable.converged (h : DialReachable d w)
    (latest : ∀ p, d.latest (w p).order = some c) : Converged d w := by
  have hkept := h.kept (Dialing.preferred_of_latest (latest .left)) fun p _ => latest p
  refine ⟨c, fun p => ?_⟩
  rcases hkept p with hidle | hholds
  · exact absurd hidle (((h.sound p).registered c).mp (Dialing.mem_of_latest (latest p)))
  · obtain ⟨entry, hentry, hc⟩ := hholds.entry
    exact ⟨entry, hentry, hc, hholds.alive⟩

/-! ## The condition is necessary -/

def DialSide.HoldsLatest (d : Dialing κ) (p : Party) (side : DialSide κ) : Prop :=
  ∀ c, d.latest side.order = some c → side.Holds d p c

lemma DialSide.HoldsLatest.register {p : Party} {x : κ} (h : side.HoldsLatest d p)
    (sound : side.Sound d p) (stage : side.stage x = .idle) :
    (side.register (d.node p) (d.node p.other) x (d.direction p x)).HoldsLatest d p := by
  intro c hc
  rw [order_register] at hc
  by_cases hx : d.Preferred x
  · rw [Dialing.latest_concat_of_preferred hx] at hc
    obtain rfl := Option.some.inj hc
    exact sound.holds_register stage hx
  · rw [Dialing.latest_concat_of_not hx] at hc
    exact (h c hc).register sound (Dialing.preferred_of_latest hc) hx

lemma exists_registered (p : Party) (rest : List κ) (once : rest.Nodup)
    (reached : DialReachable d w) (idle : ∀ c ∈ rest, (w p).stage c = .idle)
    (holds : (w p).HoldsLatest d p) :
    ∃ w', DialReachable d w' ∧ (w' p).order = (w p).order ++ rest ∧
      (w' p).HoldsLatest d p ∧ ∀ q, q ≠ p → w' q = w q := by
  induction rest generalizing w with
  | nil => exact ⟨w, reached, (List.append_nil _).symm, holds, fun _ _ => rfl⟩
  | cons x rest ih =>
    obtain ⟨hx, hrest⟩ := List.nodup_cons.mp once
    have hidle := idle x List.mem_cons_self
    have hsound := reached.sound p
    let next := (w p).register (d.node p) (d.node p.other) x (d.direction p x)
    have hnext : DialReachable d (Function.update w p next) :=
      .step _ _ reached (.registers p x hidle)
    have hself : Function.update w p next p = next := update_self _ _ _
    obtain ⟨w', hreached, horder, hholds, hother⟩ := ih hrest hnext
      (fun c hc => by
        rw [hself]
        by_contra hstage
        have hmem := (hsound.register.registered c).mpr hstage
        rw [DialSide.order_register, List.mem_append, List.mem_singleton] at hmem
        rcases hmem with hmem | rfl
        · exact (hsound.registered c).mp hmem (idle c (List.mem_cons_of_mem x hc))
        · exact hx hc)
      (by
        rw [hself]
        exact holds.register hsound hidle)
    refine ⟨w', hreached, ?_, hholds, fun q hq => (hother q hq).trans (update_of_ne hq _ _)⟩
    rw [horder, hself, DialSide.order_register, List.append_assoc]
    rfl

def Service.rank : Service → ℕ
  | .idle => 3
  | .serving => 2
  | .ending => 1
  | .over => 0

def DialWorld.rank (w : DialWorld κ) : ℕ := ∑ x : Party × κ, ((w x.1).stage x.2).rank

lemma DialWorld.rank_update_lt {x : κ} {next : Service}
    (hstage : side.stage = Function.update (w q).stage x next)
    (hlt : next.rank < ((w q).stage x).rank) :
    DialWorld.rank (Function.update w q side) < w.rank := by
  refine Finset.sum_lt_sum ?_ ⟨(q, x), Finset.mem_univ _, ?_⟩
  · rintro ⟨p, y⟩ -
    rcases eq_or_ne p q with rfl | hne
    · rw [update_self, hstage]
      rcases eq_or_ne y x with rfl | hy
      · rw [update_self]
        exact hlt.le
      · rw [update_of_ne hy]
    · rw [update_of_ne hne]
  · show (((Function.update w q side) q).stage x).rank < _
    rw [update_self, hstage, update_self]
    exact hlt

structure Progress (d : Dialing κ) (w w' : DialWorld κ) : Prop where
  rank : w'.rank < w.rank
  started : ∀ p c, (w' p).stage c ≠ .idle
  order : ∀ p, (w' p).order = (w p).order
  entries : ∀ p entry, (w' p).table.entries (d.node p.other) = some entry →
    (w p).table.entries (d.node p.other) = some entry

lemma Progress.update {x : κ} {next : Service} (started : ∀ p c, (w p).stage c ≠ .idle)
    (stage : side.stage = Function.update (w q).stage x next) (hnext : next ≠ .idle)
    (rank : next.rank < ((w q).stage x).rank) (order : side.order = (w q).order)
    (entries : ∀ entry, side.table.entries (d.node q.other) = some entry → (w q).table.entries
      (d.node q.other) = some entry) : Progress d w (Function.update w q side) := by
  refine ⟨DialWorld.rank_update_lt stage rank, ?_, ?_, ?_⟩
  all_goals
    intro p
    rcases eq_or_ne p q with rfl | hne
  · rw [update_self, stage]
    exact fun c => DialSide.update_ne_idle (started p c) hnext
  · rw [update_of_ne hne]
    exact started p
  · rw [update_self, order]
  · rw [update_of_ne hne]
  · rw [update_self]
    exact entries
  · rw [update_of_ne hne]
    exact fun _ h => h

lemma DialStep.progress (step : DialStep d w w') (started : ∀ p c, (w p).stage c ≠ .idle) :
    Progress d w w' := by
  cases step with
  | registers q x stage => exact absurd stage (started q x)
  | ends q x stage =>
    exact .update started rfl nofun (by rw [stage]; decide) rfl fun _ h => h
  | cleans q x stage =>
    exact .update started rfl nofun (by rw [stage]; decide) rfl
      fun _ h => entries_of_cleanup h

lemma exists_settled (reached : DialReachable d w) (started : ∀ p c, (w p).stage c ≠ .idle) :
    ∃ w', DialReachable d w' ∧ Settled d w' ∧ (∀ p, (w' p).order = (w p).order) ∧
      ∀ p entry, (w' p).table.entries (d.node p.other) = some entry →
        (w p).table.entries (d.node p.other) = some entry := by
  induction hrank : w.rank using Nat.strong_induction_on generalizing w with
  | _ n ih =>
    by_cases hsettled : Settled d w
    · exact ⟨w, reached, hsettled, fun _ => rfl, fun _ _ h => h⟩
    · obtain ⟨w₁, hstep⟩ := not_forall.mp hsettled
      have step := not_not.mp hstep
      have hprogress := step.progress started
      obtain ⟨w', hreached, hsettled', horder, hentries⟩ :=
        ih w₁.rank (hrank ▸ hprogress.rank) (reached.step _ _ step) hprogress.started rfl
      exact ⟨w', hreached, hsettled', fun p => (horder p).trans (hprogress.order p),
        fun p entry h => hprogress.entries p entry (hentries p entry h)⟩

lemma exists_all_registered (order : Party → List κ) (once : ∀ p, (order p).Nodup) :
    ∃ w, DialReachable d w ∧ ∀ p, (w p).order = order p ∧ (w p).HoldsLatest d p := by
  obtain ⟨w₁, hreached₁, horder₁, hholds₁, hother₁⟩ :=
    exists_registered (d := d) .left (order .left) (once .left) .start (fun _ _ => rfl) nofun
  have hright : w₁ .right = DialWorld.start .right := hother₁ .right nofun
  obtain ⟨w₂, hreached₂, horder₂, hholds₂, hother₂⟩ :=
    exists_registered .right (order .right) (once .right) hreached₁
      (fun _ _ => by rw [hright]; rfl) (by rw [hright]; exact nofun)
  have hleft : w₂ .left = w₁ .left := hother₂ .left nofun
  refine ⟨w₂, hreached₂, fun p => ?_⟩
  cases p with
  | left => exact ⟨by rw [hleft, horder₁]; rfl, by rw [hleft]; exact hholds₁⟩
  | right => exact ⟨by rw [horder₂, hright]; rfl, hholds₂⟩

/-- Some run registers everything in the given orders and settles; its entries are those from
before any close. -/
theorem exists_settled_run (order : Party → List κ) (once : ∀ p, (order p).Nodup)
    (every : ∀ p c, c ∈ order p) :
    ∃ w w' : DialWorld κ, DialReachable d w' ∧ Settled d w' ∧ (∀ p, (w' p).order = order p) ∧
      (∀ p, (w p).order = order p ∧ (w p).HoldsLatest d p) ∧
      ∀ p entry, (w' p).table.entries (d.node p.other) = some entry →
        (w p).table.entries (d.node p.other) = some entry := by
  obtain ⟨w, hreached, hw⟩ := exists_all_registered (d := d) order once
  have hstarted : ∀ p c, (w p).stage c ≠ .idle := by
    intro p c
    rw [← (hreached.sound p).registered c, (hw p).1]
    exact every p c
  obtain ⟨w', hreached', hsettled, horder, hentries⟩ := exists_settled hreached hstarted
  exact ⟨w, w', hreached', hsettled, fun p => (horder p).trans (hw p).1, hw, hentries⟩

/-- With given orders of registration, the nodes converge in every interleaving exactly when
the preferred connection that each registered last is the same. -/
theorem dials_converge_iff (d : Dialing κ) (order : Party → List κ) (once : ∀ p, (order p).Nodup)
    (every : ∀ p c, c ∈ order p) :
    (∀ w, DialReachable d w → (∀ p, (w p).order = order p) → Settled d w → Converged d w) ↔
      ∃ c, ∀ p, d.latest (order p) = some c := by
  constructor
  · intro hconverge
    obtain ⟨w, w', hreached, hsettled, horder, hw, hentries⟩ :=
      exists_settled_run (d := d) order once every
    obtain ⟨c, hc⟩ := hconverge w' hreached horder hsettled
    refine ⟨c, fun p => ?_⟩
    -- the entry that is left is the one of the last preferred registration
    obtain ⟨a, ha⟩ := Dialing.exists_latest (d := d) (every p) c
    obtain ⟨entry, hentry, rfl, -⟩ := hc p
    obtain ⟨held, hheld, rfl⟩ := ((hw p).2 a (by rw [(hw p).1]; exact ha)).entry
    rw [hentries p entry hentry] at hheld
    rw [ha, Option.some.inj hheld]
  · rintro ⟨c, hc⟩ w hreached horder -
    exact hreached.converged fun p => by rw [horder p]; exact hc p

end Orders

end

def crossedDials : Dialing (Fin 2) where
  node p := if p = .left then firstNode else secondNode
  distinct := by decide +kernel
  dialer c := if c = 0 then .left else .right

/-- A crossed dial that the nodes register in opposite orders settles, and then converges. -/
theorem crossed_dials_converge :
    ∃ w, DialReachable crossedDials w ∧ Settled crossedDials w ∧ Converged crossedDials w := by
  have hconverge := (dials_converge_iff crossedDials (fun p => if p = .left then [0, 1] else [1, 0])
    (by decide) (by decide)).mpr ⟨0, by decide +kernel⟩
  obtain ⟨-, w, hreached, hsettled, horder, -⟩ :=
    exists_settled_run (d := crossedDials) (fun p => if p = .left then [0, 1] else [1, 0])
      (by decide) (by decide)
  exact ⟨w, hreached, hsettled, hconverge w hreached horder hsettled⟩

def repeatedDials : Dialing (Fin 2) where
  node p := if p = .left then firstNode else secondNode
  distinct := by decide +kernel
  dialer _ := .left

/-- Two dials from one node that the nodes register in opposite orders: each node retires the
connection that the other one keeps, and both end without a session. -/
theorem repeated_dials_lose_session :
    ∃ w, DialReachable repeatedDials w ∧ Settled repeatedDials w ∧
      ∀ p, (w p).table.entries (repeatedDials.node p.other) = none := by
  have h1 := DialReachable.start.step _ _ (.registers (d := repeatedDials) .left 0 rfl)
  have h2 := h1.step _ _ (.registers .left 1 (by decide +kernel))
  have h3 := h2.step _ _ (.registers .right 1 (by decide +kernel))
  have h4 := h3.step _ _ (.registers .right 0 (by decide +kernel))
  -- the retired sessions end
  have h5 := h4.step _ _ (.ends .left 0 (by decide +kernel) (.inl (by decide +kernel)))
  have h6 := h5.step _ _ (.cleans .left 0 (by decide +kernel))
  have h7 := h6.step _ _ (.ends .right 1 (by decide +kernel) (.inl (by decide +kernel)))
  have h8 := h7.step _ _ (.cleans .right 1 (by decide +kernel))
  -- and the closes reach the sessions that were kept
  have h9 := h8.step _ _ (.ends .left 1 (by decide +kernel) (.inr (by decide +kernel)))
  have h10 := h9.step _ _ (.cleans .left 1 (by decide +kernel))
  have h11 := h10.step _ _ (.ends .right 0 (by decide +kernel) (.inr (by decide +kernel)))
  have h12 := h11.step _ _ (.cleans .right 0 (by decide +kernel))
  refine ⟨_, h12, settled_of_over (by decide +kernel), ?_⟩
  intro p
  rw [← Option.isNone_iff_eq_none]
  revert p
  decide +kernel

end Radiata.Session
