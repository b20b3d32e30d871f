import Radiata.Reconcile.Evidence
import Radiata.Lib.Runs

/-!
# The backlog as a queue

A drive drains the backlog into its output at three points, and the input between the
first two may fail.  The failure returns the error alone: what the first drain had taken
out of the backlog is neither returned nor put back.

The messages pushed and the messages returned are followed along a run.  The backlog is
what was pushed and not yet returned, in push order, exactly as long as every failing
drive finds it empty.
-/

namespace Radiata.Reconcile

open Lib

def Op.isDrive : Op → Bool
  | .drive _ => true
  | _ => false

namespace Engine

variable {sha256 : Hash} {e : Engine} {op : Op} {ops : List Op}

/-! ## One operation -/

section

variable (sha256 : Hash) (e : Engine)

/-- What an operation pushes: the input step of a drive pushes behind what the first drain
left, the quiescence step behind what the second left. -/
def pushes : Op → List Message
  | .drive input =>
    match e.opened.accept sha256 input with
    | (.error _, e') => e'.backlog.drop e.opened.backlog.length
    | (.ok generated, e') =>
      let drained := (e'.drainBacklog (e.backlog.take messageBudgetPerDrive)).2
      e'.backlog.drop e.opened.backlog.length ++
        (drained.settle generated).backlog.drop drained.backlog.length
  | _ => []

def returns : Op → List Message
  | .drive input => sent (e.drive sha256 input).1
  | _ => []

def discards : Op → List Message
  | .drive input =>
    match (e.drive sha256 input).1 with
    | .ok _ => []
    | .error _ => e.backlog.take messageBudgetPerDrive
  | _ => []

def Fails : Op → Prop
  | .drive input => ∃ err, (e.drive sha256 input).1 = .error err
  | _ => False

lemma pushes_drive (input : Drive) : e.pushes sha256 (.drive input) = e.queued sha256 input := by
  obtain ⟨accepted, haccepted⟩ := accept_prefix sha256 e.opened input
  cases h : e.opened.accept sha256 input with
  | mk result e' =>
    rw [h] at haccepted
    cases result with
    | error err =>
      simp only [pushes, h, queued_of_error h]
      rw [accept_error_backlog h, List.drop_length]
    | ok generated =>
      obtain ⟨settled, hsettled⟩ := (settle_moves generated (Grounds.any_holds
        (e'.drainBacklog (e.backlog.take messageBudgetPerDrive)).2)).extends.backlog
      simp only [pushes, h]
      rw [queued_of_ok haccepted.symm hsettled.symm h, ← haccepted, ← hsettled,
        List.drop_left, List.drop_left]

/-- **One operation and the queue**: what it discards or returns comes from the front of the
backlog, what it pushes goes to the back. -/
theorem step_queue (op : Op) :
    e.discards sha256 op ++ (e.returns sha256 op ++ (e.step sha256 op).backlog) =
      e.backlog ++ e.pushes sha256 op := by
  cases op with
  | insertRow key content =>
    simpa [discards, returns, pushes, step, insertRow] using
      (insertRowInner_refills sha256 e key content true).backlog
  | insertRowQuiet key content =>
    simpa [discards, returns, pushes, step, insertRowQuiet] using
      (insertRowInner_refills sha256 e key content false).backlog
  | removeRow key content =>
    simpa [discards, returns, pushes, step] using (removeRow_refills sha256 e key content).backlog
  | drive input =>
    obtain ⟨hbacklog, hout⟩ := drive_backlog sha256 e input
    rw [pushes_drive]
    show _ ++ (_ ++ (e.drive sha256 input).2.backlog) = _
    cases hresult : (e.drive sha256 input).1 with
    | ok out =>
      simp only [discards, returns, hresult, sent, List.nil_append]
      rw [hbacklog, hout out hresult, List.take_append_drop]
    | error err =>
      -- a failing input pushes nothing, so one budget of the old backlog is gone
      have hnone : e.queued sha256 input = [] := by
        rw [queued]
        split
        · next h => rw [h] at hresult; cases hresult
        · rfl
      simp only [discards, returns, hresult, sent, List.nil_append]
      rw [hbacklog, hnone, List.append_nil, List.take_append_drop]

end

lemma discards_eq_nil_iff :
    e.discards sha256 op = [] ↔ (e.Fails sha256 op → e.backlog = []) := by
  cases op with
  | insertRow | insertRowQuiet | removeRow => simp [discards, Fails]
  | drive input =>
    cases hresult : (e.drive sha256 input).1 with
    | ok out => simp [discards, Fails, hresult]
    | error err => simp [discards, Fails, hresult, messageBudgetPerDrive]

/-! ## Runs -/

def pushed (sha256 : Hash) (lane : LaneId) (ops : List Op) : List Message :=
  outputs (step sha256) (pushes sha256) (new lane) ops

def returned (sha256 : Hash) (lane : LaneId) (ops : List Op) : List Message :=
  outputs (step sha256) (returns sha256) (new lane) ops

def Succeeding (sha256 : Hash) (e : Engine) (ops : List Op) : Prop :=
  EveryStep (step sha256) (fun e op => ¬ e.Fails sha256 op) e ops

structure Lossless (sha256 : Hash) (lane : LaneId) (ops : List Op) : Prop where
  stream : returned sha256 lane ops ++ (run sha256 lane ops).backlog = pushed sha256 lane ops
  later : ∀ more, Succeeding sha256 (run sha256 lane ops) more →
    (run sha256 lane ops).backlog.length ≤ messageBudgetPerDrive * more.countP Op.isDrive →
    pushed sha256 lane ops <+: returned sha256 lane (ops ++ more)

lemma min_le_length_returns (hkept : e.discards sha256 op = []) (hdrive : op.isDrive = true) :
    min messageBudgetPerDrive e.backlog.length ≤ (e.returns sha256 op).length := by
  cases op with
  | insertRow | insertRowQuiet | removeRow => cases hdrive
  | drive input =>
    cases hresult : (e.drive sha256 input).1 with
    | error err =>
      rw [discards_eq_nil_iff.mp hkept ⟨err, hresult⟩]
      simp
    | ok out =>
      simp only [returns, hresult, sent]
      rw [(drive_backlog sha256 e input).2 out hresult, List.length_take, List.length_append]
      omega

lemma backlog_prefix_outputs (hsuccess : Succeeding sha256 e ops)
    (hlength : e.backlog.length ≤ messageBudgetPerDrive * ops.countP Op.isDrive) :
    e.backlog <+: outputs (step sha256) (returns sha256) e ops := by
  have hkept : EveryStep (step sha256) (fun e op => e.discards sha256 op = []) e ops :=
    fun before op after hsplit =>
      discards_eq_nil_iff.mpr fun hfails => absurd hfails (hsuccess before op after hsplit)
  have hstream := outputs_of_lossless (step_queue sha256) hkept
  have hserved := length_outputs_of_served (step_queue sha256)
    (fun e op hnone hdrive => min_le_length_returns hnone hdrive) hkept
  -- both are initial parts of one stream, and the backlog is the shorter one
  refine List.prefix_of_prefix_length_le (List.prefix_append _ _)
    (hstream ▸ List.prefix_append _ _) ?_
  omega

lemma stream_iff (sha256 : Hash) (lane : LaneId) (ops : List Op) :
    returned sha256 lane ops ++ (run sha256 lane ops).backlog = pushed sha256 lane ops ↔
      EveryStep (step sha256) (fun e op => e.discards sha256 op = []) (new lane) ops :=
  outputs_eq_iff_lossless (step_queue sha256)

/-- **When the backlog is a lossless queue.**  In every run, what the successful drives
returned, then the backlog, is everything pushed in push order, and enough further drives
return all of it, exactly when every failing drive found the backlog empty. -/
theorem backlog_lossless_iff (sha256 : Hash) (lane : LaneId) (ops : List Op) :
    Lossless sha256 lane ops ↔
      EveryStep (step sha256) (fun e op => e.Fails sha256 op → e.backlog = []) (new lane) ops := by
  simp only [← discards_eq_nil_iff]
  rw [← stream_iff]
  refine ⟨Lossless.stream, fun hstream => ⟨hstream, fun more hsuccess hlength => ?_⟩⟩
  rw [← hstream, returned, returned, outputs_append, List.prefix_append_right_inj]
  exact backlog_prefix_outputs hsuccess hlength

/-- A hint over one range, as often as a message may name it, that claims the range is
empty. -/
def emptyClaims : Message :=
  .hint .descriptors (List.replicate maxRangesPerMessage ⟨0, maxWord, 0, 0⟩) []

/-- A hint opens a round and leaves a question open, two more are held, and an empty ROWS
message closes the round: the DONE receipt and the replies to the held hints are one more
message than a drive returns. -/
def crowdedOps : List Op :=
  [.insertRow [1] [2],
    .drive (.message (.hint .descriptors [⟨0, maxWord, 5, 0⟩] [])),
    .drive (.message emptyClaims), .drive (.message emptyClaims),
    .drive (.message (.rows .descriptors []))]

/-- **A failing drive drops a queued message**: the one left in the backlog is gone after a
message of another lane. -/
theorem lane_mismatch_drops_rows :
    (run oneRowHash .descriptors crowdedOps).backlog = [.rows .descriptors [⟨[1], [2]⟩]] ∧
      (run oneRowHash .descriptors
        (crowdedOps ++ [.drive (.message (.done .trust 0))])).backlog = [] ∧
      ¬ Lossless oneRowHash .descriptors
        (crowdedOps ++ [.drive (.message (.done .trust 0))]) := by
  refine ⟨by decide +kernel, by decide +kernel, fun hlossless => ?_⟩
  have hkept := (stream_iff _ _ _).mp hlossless.stream crowdedOps _ [] rfl
  have hdropped : (run oneRowHash .descriptors crowdedOps).discards oneRowHash
      (.drive (.message (.done .trust 0))) = [.rows .descriptors [⟨[1], [2]⟩]] := by
    decide +kernel
  exact absurd (hdropped.symm.trans hkept) (List.cons_ne_nil _ _)

end Engine

end Radiata.Reconcile
