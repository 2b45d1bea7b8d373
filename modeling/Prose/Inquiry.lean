import Prose.Problem

/-! Inquiries: computations that ask questions as they go. A grammar rule is an inquiry about the
parts of its tokens; what answers the questions, and what state that takes, is decided elsewhere. -/
namespace Prose

/-- A computation that is done, has failed, or asks a question and goes on with the answer. -/
inductive Inquiry (Question : Type) (Reply : Question → Type) (α : Type) where
  | done (a : α)
  | fail (p : Problem)
  | ask (q : Question) (next : Reply q → Inquiry Question Reply α)

namespace Inquiry

variable {Q : Type} {R : Q → Type} {α β : Type}

def bind (f : α → Inquiry Q R β) : Inquiry Q R α → Inquiry Q R β
  | done a => f a
  | fail p => fail p
  | ask q next => ask q fun r => (next r).bind f

instance : Monad (Inquiry Q R) where
  pure := done
  bind x f := x.bind f

def question (q : Q) : Inquiry Q R (R q) :=
  ask q done

def run {m : Type → Type} [Monad m] (answer : (q : Q) → ExceptT Problem m (R q)) :
    Inquiry Q R α → ExceptT Problem m α
  | done a => pure a
  | fail p => throw p
  | ask q next => do
    let r ← answer q
    (next r).run answer

def translate {Q' : Type} {R' : Q' → Type} (asked : (q : Q) → Inquiry Q' R' (R q)) :
    Inquiry Q R α → Inquiry Q' R' α
  | done a => done a
  | fail p => fail p
  | ask q next => (asked q).bind fun r => (next r).translate asked

end Inquiry

end Prose
