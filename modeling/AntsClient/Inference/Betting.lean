import AntsClient.Common
import Mathlib.Data.Rat.Defs

namespace AntsClient.Inference.Betting

open Common

/-- C's `double`, by the operations used; `exp` is libm's, and `ofQ24` is `ants_canon_q24_to_f32`,
converted. -/
class Double (D : Type) extends Add D, Sub D, Mul D, Div D, Neg D where
  ofRat : ℚ → D
  ofQ24 : Int32 → D
  exp : D → D
  lt : D → D → Bool
  le : D → D → Bool

open Double

inductive Verdict
  | continued
  | fraud
  deriving DecidableEq

variable {D : Type} [Double D]

structure EProcess (D : Type) where
  alpha : D
  mu0 : D
  lambdaCap : D
  capital : D
  muHat : D
  varHat : D
  n : UInt64

def eprocessInit (alpha mu0 lambdaCap : D) : Except Error (EProcess D) :=
  if !(lt (ofRat 0) alpha && lt alpha (ofRat 1)) || !(le (ofRat 0) mu0 && lt mu0 (ofRat 1)) ||
      !le (ofRat 0) lambdaCap then
    .error .invalidArg
  else .ok ⟨alpha, mu0, lambdaCap, ofRat 1, ofRat (1 / 2), ofRat (1 / 4), 0⟩

def lambdaOf (ep : EProcess D) : D :=
  let lambda := (ep.muHat - ep.mu0) / ep.varHat
  let lambda := if lt lambda (ofRat 0) then ofRat 0 else lambda
  if lt ep.lambdaCap lambda then ep.lambdaCap else lambda

def eprocessUpdate (ep : EProcess D) (score : D) : Except Error (EProcess D × Verdict) :=
  if !(le (ofRat 0) score && le score (ofRat 1)) then .error .invalidArg
  else
    let capital := ep.capital * (ofRat 1 + lambdaOf ep * (score - ep.mu0))
    let k := ofRat (ep.n + 1).toNat
    let knew := k + ofRat 1
    let delta := score - ep.muHat
    let muHat := ep.muHat + delta / knew
    let m2 := ep.varHat * k + delta * (score - muHat)
    let ep' := { ep with capital := capital, muHat := muHat, varHat := m2 / knew, n := ep.n + 1 }
    .ok (ep', if le (ofRat 1 / ep.alpha) capital then .fraud else .continued)

def maxLogit (x : Int32) (xs : List Int32) : D :=
  xs.foldl (fun max x => if lt max (ofQ24 x) then ofQ24 x else max) (ofQ24 x)

def sumExp (max : D) (xs : List Int32) : D := xs.foldl (fun sum x => sum + exp (ofQ24 x - max)) (ofRat 0)

def discrepancy (pRef qCommitted : List Int32) : Except Error D :=
  match pRef, qCommitted with
  | p :: ps, q :: qs =>
    let maxP : D := maxLogit p ps
    let maxQ : D := maxLogit q qs
    let sumP := sumExp maxP (p :: ps)
    let sumQ := sumExp maxQ (q :: qs)
    let tv := ((p :: ps).zip (q :: qs)).foldl (fun tv (x, y) =>
      let d := exp (ofQ24 x - maxP) / sumP - exp (ofQ24 y - maxQ) / sumQ
      tv + if lt d (ofRat 0) then -d else d) (ofRat 0)
    let tv := tv * ofRat (1 / 2)
    let tv := if lt tv (ofRat 0) then ofRat 0 else tv
    .ok (if lt (ofRat 1) tv then ofRat 1 else tv)
  | _, _ => .error .invalidArg

end AntsClient.Inference.Betting
