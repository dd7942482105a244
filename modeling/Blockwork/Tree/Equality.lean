import Blockwork.Tree.Basic

/-!
# Equality of trees

Equality of expressions, of statements and of procedures is decidable: two trees are equal when
their roots have the same form and their parts are equal.
-/

namespace Blockwork

mutual

private def Expression.decideEq : (a b : Expression) → Decidable (a = b)
  | .number m, .number n => decidable_of_iff (m = n) (by simp)
  | .variable x, .variable y => decidable_of_iff (x = y) (by simp)
  | .binary l o r, .binary l' o' r' =>
    have := Expression.decideEq l l'
    have := Expression.decideEq r r'
    decidable_of_iff (l = l' ∧ o = o' ∧ r = r') (by simp)
  | .call f as, .call g bs =>
    have := Expression.decideListEq as bs
    decidable_of_iff (f = g ∧ as = bs) (by simp)
  | .number _, .variable _ | .number _, .binary .. | .number _, .call ..
  | .variable _, .number _ | .variable _, .binary .. | .variable _, .call ..
  | .binary .., .number _ | .binary .., .variable _ | .binary .., .call ..
  | .call .., .number _ | .call .., .variable _ | .call .., .binary .. => isFalse (by simp)

private def Expression.decideListEq : (as bs : List Expression) → Decidable (as = bs)
  | [], [] => isTrue rfl
  | a :: as, b :: bs =>
    have := Expression.decideEq a b
    have := Expression.decideListEq as bs
    decidable_of_iff (a = b ∧ as = bs) (by simp)
  | [], _ :: _ | _ :: _, [] => isFalse (by simp)

end

instance : DecidableEq Expression := Expression.decideEq

mutual

private def Statement.decideEq (a b : Statement) : Decidable (a = b) :=
  match a with
  | .assign x e =>
    match b with
    | .assign y f =>
      decidable_of_iff (x = y ∧ e = f) (by simp)
    | .block _ | .branch .. | .loop .. | .read _ | .display _ | .return _ | .procedure .. =>
      isFalse (by simp)
  | .block s =>
    match b with
    | .block t =>
      have := Statement.decideListEq s t
      decidable_of_iff (s = t) (by simp)
    | .assign .. | .branch .. | .loop .. | .read _ | .display _ | .return _ | .procedure .. =>
      isFalse (by simp)
  | .branch c s t =>
    match b with
    | .branch c' s' t' =>
      have := Statement.decideListEq s s'
      have := Statement.decideListEq t t'
      decidable_of_iff (c = c' ∧ s = s' ∧ t = t') (by simp)
    | .assign .. | .block _ | .loop .. | .read _ | .display _ | .return _ | .procedure .. =>
      isFalse (by simp)
  | .loop c s =>
    match b with
    | .loop c' s' =>
      have := Statement.decideListEq s s'
      decidable_of_iff (c = c' ∧ s = s') (by simp)
    | .assign .. | .block _ | .branch .. | .read _ | .display _ | .return _ | .procedure .. =>
      isFalse (by simp)
  | .read x =>
    match b with
    | .read y =>
      decidable_of_iff (x = y) (by simp)
    | .assign .. | .block _ | .branch .. | .loop .. | .display _ | .return _ | .procedure .. =>
      isFalse (by simp)
  | .display e =>
    match b with
    | .display f =>
      decidable_of_iff (e = f) (by simp)
    | .assign .. | .block _ | .branch .. | .loop .. | .read _ | .return _ | .procedure .. =>
      isFalse (by simp)
  | .return e =>
    match b with
    | .return f =>
      decidable_of_iff (e = f) (by simp)
    | .assign .. | .block _ | .branch .. | .loop .. | .read _ | .display _ | .procedure .. =>
      isFalse (by simp)
  | .procedure f xs s =>
    match b with
    | .procedure g ys t =>
      have := Statement.decideListEq s t
      decidable_of_iff (f = g ∧ xs = ys ∧ s = t) (by simp)
    | .assign .. | .block _ | .branch .. | .loop .. | .read _ | .display _ | .return _ =>
      isFalse (by simp)

private def Statement.decideListEq : (as bs : List Statement) → Decidable (as = bs)
  | [], [] => isTrue rfl
  | a :: as, b :: bs =>
    have := Statement.decideEq a b
    have := Statement.decideListEq as bs
    decidable_of_iff (a = b ∧ as = bs) (by simp)
  | [], _ :: _ | _ :: _, [] => isFalse (by simp)

end

instance : DecidableEq Statement := Statement.decideEq

deriving instance DecidableEq for Procedure

end Blockwork
