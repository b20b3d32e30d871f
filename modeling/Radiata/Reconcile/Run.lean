import Radiata.Reconcile.Emission
import Radiata.Reconcile.WireBijection

/-!
# Runs of one engine

The operations a session performs on an engine, and runs of them from the empty
engine.  An adversarial peer is any sequence whose messages the wire decoder
accepts.
-/

namespace Radiata.Reconcile

inductive Op where
  | insertRow (key content : List UInt8)
  | insertRowQuiet (key content : List UInt8)
  | removeRow (key content : List UInt8)
  | drive (input : Drive)

def Drive.Decoded : Drive → Prop
  | .message m => ∃ bytes, decode bytes = .ok m
  | _ => True

def Op.Decoded : Op → Prop
  | .drive input => input.Decoded
  | _ => True

lemma wellShaped_of_decode {bytes : List UInt8} {m : Message} (h : decode bytes = .ok m) :
    m.WellShaped :=
  (encode_eq_ok_iff.mp (encode_of_decode h)).1

variable {sha256 : Hash}

namespace Engine

def step (sha256 : Hash) (e : Engine) : Op → Engine
  | .insertRow key content => (e.insertRow sha256 key content).2
  | .insertRowQuiet key content => (e.insertRowQuiet sha256 key content).2
  | .removeRow key content => (e.removeRow sha256 key content).2
  | .drive input => (e.drive sha256 input).2

def run (sha256 : Hash) (lane : LaneId) (ops : List Op) : Engine :=
  ops.foldl (step sha256) (new lane)

variable {lane : LaneId}

/-- What holds of the empty engine and is kept by every allowed operation holds along
every run of allowed operations. -/
theorem run_invariant {P : Engine → Prop} {allowed : Op → Prop} (hnew : P (new lane))
    (hstep : ∀ e op, P e → allowed op → P (e.step sha256 op)) {ops : List Op}
    (hops : ∀ op ∈ ops, allowed op) : P (run sha256 lane ops) := by
  unfold run
  generalize new lane = e at hnew
  induction ops generalizing e with
  | nil => exact hnew
  | cons op ops ih =>
    exact ih (fun o ho => hops o (List.mem_cons_of_mem _ ho)) _
      (hstep e op hnew (hops op List.mem_cons_self))

lemma run_append (sha256 : Hash) (lane : LaneId) (ops : List Op) (op : Op) :
    run sha256 lane (ops ++ [op]) = (run sha256 lane ops).step sha256 op := by
  rw [run, List.foldl_append]
  rfl

lemma run_trace_invariant {P : List Op → Engine → Prop} (hnew : P [] (new lane))
    (hstep : ∀ ops op e, P ops e → P (ops ++ [op]) (e.step sha256 op)) (ops : List Op) :
    P ops (run sha256 lane ops) := by
  induction ops using List.reverseRecOn with
  | nil => exact hnew
  | append_singleton ops op ih =>
    rw [run_append]
    exact hstep ops op _ ih

/-! ## Rows along a run -/

lemma insertRowInner_refills (sha256 : Hash) (e : Engine) (key content : List UInt8)
    (eager : Bool) : Refills e (e.insertRowInner sha256 key content eager).2 := by
  unfold insertRowInner
  split_ifs
  · exact .refl e
  · cases itemDigest sha256 key content with
    | error err => exact .refl e
    | ok digest => exact e.store_refills digest ⟨key, content⟩ eager

lemma removeRow_refills (sha256 : Hash) (e : Engine) (key content : List UInt8) :
    Refills e (e.removeRow sha256 key content).2 := by
  have hindex (index : LiveIndex Row) : Refills e { e with index := index } :=
    ⟨rfl, rfl, rfl, rfl, rfl, rfl, rfl, rfl⟩
  unfold removeRow
  cases itemDigest sha256 key content with
  | error err => exact .refl e
  | ok digest =>
    dsimp only
    cases (e.index.remove digest).1 with
    | none => exact hindex _
    | some removed => exact (hindex _).trans (markDirty_refills _ digest)

lemma Intake.index_keeps {m : Message} {e e' : Engine} {P : LiveIndex Row → Prop}
    (h : Intake sha256 m e e') (hindex : P e.index)
    (hstore : ∀ ix digest row, row ∈ m.carried → itemDigest sha256 row.key row.content = .ok digest
      → P ix → P (ix.insert digest row).2) : P e'.index := by
  induction h with
  | refl => exact hindex
  | tail _ hstep ih =>
    cases hstep with
    | hear | learn => exact ih
    | store hrow hdigest =>
      rw [store_index]
      exact hstore _ _ _ hrow hdigest ih

end Engine

def Op.stores : Op → List Row
  | .insertRow key content | .insertRowQuiet key content =>
    if rowFitsMessage key.length content.length then [⟨key, content⟩] else []
  | .drive (.message m) => m.carried
  | _ => []

namespace Engine

variable {e : Engine} {P : LiveIndex Row → Prop}

lemma insertRowInner_index_keeps {key content : List UInt8} (hindex : P e.index) (eager : Bool)
    (hstore : ∀ ix digest row, row ∈ (if rowFitsMessage key.length content.length then [(⟨key,
      content⟩ : Row)] else []) → itemDigest sha256 row.key row.content = .ok digest → P ix → P
      (ix.insert digest row).2) : P (e.insertRowInner sha256 key content eager).2.index := by
  unfold insertRowInner
  cases hfits : rowFitsMessage key.length content.length with
  | false => exact hindex
  | true =>
    rw [hfits] at hstore
    cases hdigest : itemDigest sha256 key content with
    | error err => exact hindex
    | ok digest =>
      show P (e.store digest ⟨key, content⟩ eager).index
      rw [store_index]
      exact hstore _ digest ⟨key, content⟩ List.mem_cons_self hdigest hindex

/-- **A property of the rows** that storing an operation's rows and removing rows keep
is kept by the operation. -/
theorem step_index_keeps {op : Op} (hindex : P e.index)
    (hstore : ∀ ix digest row, row ∈ op.stores → itemDigest sha256 row.key row.content = .ok digest
      → P ix → P (ix.insert digest row).2)
    (hremove : ∀ ix digest, P ix → P (LiveIndex.remove ix digest).2) :
    P (e.step sha256 op).index := by
  cases op with
  | insertRow key content => exact insertRowInner_index_keeps hindex true hstore
  | insertRowQuiet key content => exact insertRowInner_index_keeps hindex false hstore
  | removeRow key content =>
    show P (e.removeRow sha256 key content).2.index
    unfold removeRow
    cases itemDigest sha256 key content with
    | error err => exact hindex
    | ok digest =>
      dsimp only
      cases (e.index.remove digest).1 with
      | none => exact hremove _ digest hindex
      | some removed =>
        show P (markDirty _ digest).index
        rw [markDirty_index]
        exact hremove _ digest hindex
  | drive input =>
    obtain ⟨e₁, hprepared, hend, -⟩ := e.drive_index sha256 input
    show P (e.drive sha256 input).2.index
    rw [← opened_index] at hindex
    rw [hend]
    cases hprepared with
    | message hintake => exact hintake.index_keeps hindex hstore
    | localChange | localChangeEager | rootExchange | drain => exact hindex

def Keyed (sha256 : Hash) (index : LiveIndex Row) : Prop :=
  ∀ entry ∈ index.iter, itemDigest sha256 entry.2.key entry.2.content = .ok entry.1

lemma Keyed.insert {ix : LiveIndex Row} {digest : UInt64} {row : Row} (h : Keyed sha256 ix)
    (hdigest : itemDigest sha256 row.key row.content = .ok digest) :
    Keyed sha256 (ix.insert digest row).2 := by
  intro entry hentry
  rcases LiveIndex.mem_iter_insert.mp hentry with rfl | ⟨hold, -⟩
  · exact hdigest
  · exact h entry hold

lemma step_keyed (op : Op) (h : Keyed sha256 e.index) :
    Keyed sha256 (e.step sha256 op).index := by
  refine step_index_keeps h (fun _ _ _ _ hdigest hix => hix.insert hdigest) ?_
  intro ix digest hix entry hentry
  exact hix entry (LiveIndex.mem_iter_remove.mp hentry).1

lemma run_keyed (sha256 : Hash) (lane : LaneId) (ops : List Op) :
    Keyed sha256 (run sha256 lane ops).index := by
  refine run_trace_invariant (P := fun _ e => Keyed sha256 e.index) ?_ ?_ ops
  · intro entry hentry
    rw [new, LiveIndex.iter_new] at hentry
    exact absurd hentry List.not_mem_nil
  · exact fun _ op _ h => step_keyed op h

structure Speaks (P : Row → Prop) (e : Engine) : Prop where
  held : ∀ entry ∈ e.index.iter, P entry.2
  backlog : ∀ m ∈ e.backlog, ∀ row ∈ m.carried, P row

lemma Speaks.new (P : Row → Prop) (lane : LaneId) : Speaks P (new lane) := by
  refine ⟨?_, fun m hm => absurd hm List.not_mem_nil⟩
  intro entry hentry
  rw [Engine.new, LiveIndex.iter_new] at hentry
  exact absurd hentry List.not_mem_nil

lemma held_step {op : Op} {P : Row → Prop} (h : ∀ entry ∈ e.index.iter, P entry.2)
    (hop : ∀ row ∈ op.stores, P row) : ∀ entry ∈ (e.step sha256 op).index.iter, P entry.2 := by
  refine step_index_keeps (P := fun ix => ∀ entry ∈ ix.iter, P entry.2) h ?_ ?_
  · intro ix digest row hrow _ hix entry hentry
    rcases LiveIndex.mem_iter_insert.mp hentry with rfl | ⟨hold, -⟩
    · exact hop row hrow
    · exact hix entry hold
  · intro ix digest hix entry hentry
    exact hix entry (LiveIndex.mem_iter_remove.mp hentry).1

/-- **An engine speaks only of rows it was given.** -/
theorem Speaks.step {op : Op} {P : Row → Prop} (h : Speaks P e) (hop : ∀ row ∈ op.stores, P row) :
    Speaks P (e.step sha256 op) := by
  have hheld : ∀ entry ∈ (e.step sha256 op).index.iter, P entry.2 := held_step h.held hop
  refine ⟨hheld, ?_⟩
  cases op with
  | insertRow key content =>
    exact (e.insertRowInner_refills sha256 key content true).backlog ▸ h.backlog
  | insertRowQuiet key content =>
    exact (e.insertRowInner_refills sha256 key content false).backlog ▸ h.backlog
  | removeRow key content => exact (e.removeRow_refills sha256 key content).backlog ▸ h.backlog
  | drive input =>
    intro m hm row hrow
    rw [Engine.step, (e.drive_backlog sha256 input).1] at hm
    rcases List.mem_append.mp (List.mem_of_mem_drop hm) with hold | hnew
    · exact h.backlog m hold row hrow
    · obtain ⟨digest, hmem⟩ := carried_held hnew hrow
      exact hheld _ hmem

end Engine

end Radiata.Reconcile
