/-
  Toso.KvCache.FloatPlan — a plan as it is priced.

  `Rankings` prices a plan over the rationals.  The source prices it in floats: its
  completion is a sum rounded twice, and its TTFT that sum less the moment it was
  priced at, rounded again.  A cost at a rate of zero raises instead.

  Main results:
    * `planOnIn_exact` — nothing rounded, and at rates that are not zero, the plan is
      the one `Rankings` prices.
-/
import Toso.KvCache.Rankings
import Toso.Domain.FloatCosts

namespace Toso.KvCache

open Lib Proposed SimCommon Domain

variable {ν ι κ : Type*} [DecidableEq ι]

section Priced

variable (rnd : ℚ → ℚ)

omit [DecidableEq ι] in
/-- `_predict`. -/
def predictIn (cluster : ClusterSensor ι) (inst : ι) (now transferT prefillT : ℚ) : ℚ × ℚ × ℚ :=
  let avail := max now (cluster.busyUntil inst)
  let done := rnd (rnd (avail + transferT) + prefillT)
  (rnd (avail - now), rnd (done - now), done)

/-- What moving a pull in takes: from whom, how many bytes, and how long. -/
def transferIn (p : Pricing ι) (inst : ι) (source : Option ι) (pullKeys : List κ) :
    Except ArithmeticError (Option ι × ℕ × ℚ) :=
  match source with
  | some src =>
      if pullKeys = [] then .ok (none, 0, 0)
      else
        let xbytes := p.model.blockBytes pullKeys.length p.blockTokens
        (readTimeIn rnd (p.endpoint src) (p.endpoint inst) xbytes p.profile).map fun t =>
          (some src, xbytes, t)
  | none => .ok (none, 0, 0)

/-- `_candidate`. -/
def candidateIn (p : Pricing ι) (cluster : ClusterSensor ι) (request : Request ν κ) (inst : ι)
    (now : ℚ) (reused : ℕ) (source : Option ι) (pullKeys : List κ) :
    Except ArithmeticError (Plan ι κ) :=
  let cached := min (reused * p.blockTokens) request.promptTokens
  let uncached := request.promptTokens - cached
  (prefillTimeIn rnd uncached p.profile p.model).bind fun prefillT =>
    (transferIn rnd p inst source pullKeys).map fun (source, xbytes, transferT) =>
      let (queueWait, ttft, done) := predictIn rnd cluster inst now transferT prefillT
      ⟨reused, cached, uncached, source, xbytes, queueWait, ttft, done, prefillT, pullKeys⟩

/-- `_plan`: what the selection raises, and what pricing does. -/
def planOnIn (p : Pricing ι) (cluster : ClusterSensor ι) (ask : PrefillAsk ν ι κ) (inst : ι) :
    Except SelectionError (Except ArithmeticError (Plan ι κ)) :=
  (ask.peer.require (worthPulling ask.counts inst p.threshold)).map fun peer =>
    let (reused, source, pullKeys) := pricedReuse ask.counts ask.keys inst peer
    candidateIn rnd p cluster ask.request inst ask.now reused source pullKeys

end Priced

omit [DecidableEq ι] in
theorem candidateIn_exact {p : Pricing ι} (h : RatesNonzero p.profile p.model)
    (cluster : ClusterSensor ι) (request : Request ν κ) (inst : ι) (now : ℚ) (reused : ℕ)
    (source : Option ι) (pullKeys : List κ) :
    candidateIn id p cluster request inst now reused source pullKeys
      = .ok (candidate p cluster request inst now reused source pullKeys) := by
  simp only [candidateIn, prefillTimeIn_exact h]
  cases source with
  | none => rfl
  | some src =>
      by_cases hpull : pullKeys = []
      · subst hpull
        rfl
      · simp only [transferIn, if_neg hpull, readTimeIn_exact h, candidate]
        rfl

/-- **A plan is the one `Rankings` prices**, nothing rounded and no rate zero. -/
theorem planOnIn_exact {p : Pricing ι} (h : RatesNonzero p.profile p.model)
    (cluster : ClusterSensor ι) (ask : PrefillAsk ν ι κ) (inst : ι) :
    planOnIn id p cluster ask inst = (planOn p cluster ask inst).map .ok := by
  unfold planOnIn planOn
  cases ask.peer.require (worthPulling ask.counts inst p.threshold) with
  | error e => rfl
  | ok peer =>
      simp only [Except.map]
      rw [candidateIn_exact h]

end Toso.KvCache
