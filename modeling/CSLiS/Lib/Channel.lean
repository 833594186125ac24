import Mathlib.Algebra.BigOperators.Group.List.Basic

/-!
# Messages that are taken in pieces

A sender puts messages on a channel, the receiver takes them in pieces. A message is the product of its pieces,
and a piece says whether it is the last one of its message. Nothing is lost, doubled or changed in order if the
pieces, put together, are the messages that were sent.
-/

namespace CSLiS.Lib.Channel

variable {M : Type*} [Monoid M]

/- The messages that are complete, and what there is of the next one. -/
def assembleStep (s : List M × M) (piece : M × Bool) : List M × M :=
  if piece.2 then (s.1 ++ [s.2 * piece.1],1) else (s.1,s.2 * piece.1)

def assemble (taken : List (M × Bool)) : List M × M := taken.foldl assembleStep ([],1)

/- `left` is what is left on the channel, the first message of it without the pieces that were taken. -/
def Conserves (sent : List M) (taken : List (M × Bool)) (left : List M) : Prop :=
  match left with
  | [] => assemble taken = (sent,1)
  | m :: rest => sent = (assemble taken).1 ++ ((assemble taken).2 * m) :: rest

variable {sent left rest : List M} {taken : List (M × Bool)} {a b m : M}

theorem assemble_append (taken : List (M × Bool)) (piece : M × Bool) :
    assemble (taken ++ [piece]) = assembleStep (assemble taken) piece := by
  rw [assemble,assemble,List.foldl_append]
  rfl

namespace Conserves

theorem nil : Conserves ([] : List M) [] [] := rfl

theorem send (h : Conserves sent taken left) (m : M) : Conserves (sent ++ [m]) taken (left ++ [m]) := by
  cases left with
  | nil =>
    have he : assemble taken = (sent,1) := h
    show sent ++ [m] = _
    rw [he,one_mul]
  | cons x rest =>
    have he : sent = (assemble taken).1 ++ ((assemble taken).2 * x) :: rest := h
    show sent ++ [m] = _
    rw [he,List.append_assoc]
    rfl

theorem piece (h : Conserves sent taken (a * b :: rest)) : Conserves sent (taken ++ [(a,false)]) (b :: rest) := by
  have he : sent = (assemble taken).1 ++ ((assemble taken).2 * (a * b)) :: rest := h
  show sent = _
  rw [assemble_append,he]
  simp only [assembleStep,Bool.false_eq_true,if_false,mul_assoc]

theorem last (h : Conserves sent taken (a :: rest)) : Conserves sent (taken ++ [(a,true)]) rest := by
  have he : sent = (assemble taken).1 ++ ((assemble taken).2 * a) :: rest := h
  cases rest with
  | nil =>
    show assemble (taken ++ [(a,true)]) = (sent,1)
    rw [assemble_append,he]
    rfl
  | cons x rest =>
    show sent = _
    rw [assemble_append,he]
    simp only [assembleStep,if_true,one_mul,List.append_assoc,List.singleton_append]

end Conserves

end CSLiS.Lib.Channel
