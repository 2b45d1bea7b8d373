import Prose.Grammar
import Prose.Proofs.Expr.Precedence
import Prose.Proofs.Stmt.Indices
import Prose.Stmt.Reading

namespace Prose

theorem Slice.startsWith_withoutTerminator {s : Slice} {k : Keyword}
    (h : s.startsWith k = false) : s.withoutTerminator.startsWith k = false := by
  obtain ⟨a, ts⟩ := s
  unfold withoutTerminator
  split
  · cases ts with
    | nil => rfl
    | cons t ts =>
      simp only [take, startsWith, length, List.length_cons, Nat.add_sub_cancel] at h ⊢
      cases ts with
      | nil => rfl
      | cons u ts => simpa using h
  · exact h

namespace Stmt

def Form.leads : Form → List Keyword
  | block => [.blockStart]
  | entryPoint => [.defineEntryPoint]
  | functionDefinition => [.defineFunction]
  | structureDefinition => [.defineStructure]
  | conditional => [.ifWord]
  | whileLoop => [.whileWord]
  | untilLoop => [.untilWord]
  | doLoop => [.doWord]
  | forEach => [.forEach]
  | forRange => [.forWord]
  | repeatLoop => [.repeatWord]
  | tryCatch => [.tryWord]
  | assignment => [.set]
  | declaration => [.letWord]
  | increment => [.increment, .decrement]
  | print => [.print, .display]
  | returning => [.returnWord]
  | breaking => [.breakWord]
  | continuing => [.continueWord]
  | exiting => [.exit]
  | throwing => [.throw, .raise]
  | assertion => [.assert]
  | importing => [.importWord]
  | listAdd => [.add]
  | listRemove => [.remove]
  | swap => [.swap]
  | readInto => [.readInto]
  | expression => []

variable {s : Slice}

/-- A form that begins with a word rejects a slice that does not begin with it. -/
theorem read_eq_of_unled {f : Form} (hf : f ≠ .expression)
    (h : ∀ k ∈ f.leads, s.startsWith k = false) : f.read s = pure none := by
  have htrim : ∀ k ∈ f.leads, s.withoutTerminator.startsWith k = false := fun k hk =>
    Slice.startsWith_withoutTerminator (h k hk)
  cases f <;> simp only [Form.leads, List.forall_mem_cons, List.not_mem_nil, false_implies,
    implies_true, and_true] at h htrim <;>
    simp only [Form.read, readBlockStatement_eq, readEntryPoint_eq, readFunctionDefinition_eq,
      readStructureDefinition_eq, readIf, readConditionLoop_eq, readDoLoop_eq, readForEach_eq,
      readForRange_eq, readRepeat_eq, readTry_eq, readAssignment_eq, readDeclaration_eq,
      readIncrement_eq, readValue_eq, readReturn_eq, readBare_eq, readImport_eq, readPair_eq,
      readSwap_eq, readReadInto_eq, Slice.enclosed_eq, List.any_cons, List.any_nil, Bool.or_false, h,
      htrim, Bool.false_eq_true, false_and, or_self, if_false]
  exact (hf rfl).elim

/-- No word begins statements of two forms. -/
theorem not_mem_leads {f f' : Form} {k : Keyword} (h : k ∈ f.leads) (hne : f' ≠ f) :
    k ∉ f'.leads := by
  have hall : ∀ f ∈ Form.all, ∀ f' ∈ Form.all, f' ≠ f → ∀ k ∈ f.leads, k ∉ f'.leads := by
    decide
  have hmem (f : Form) : f ∈ Form.all := by cases f <;> decide
  exact hall f (hmem f) f' (hmem f') hne k h

end Stmt

namespace Grammar

/-- The rules for statements stand in the order of their levels, that for expressions last. -/
theorem exists_before_statement (f : Stmt.Form) :
    ∃ before after, standard.statements = before ++ f.rule :: after ∧
      ∀ r ∈ before, r.form ≠ f ∧ r.form ≠ .expression := by
  have hpairwise : standard.statements.Pairwise fun r r' => r'.priority < r.priority := by
    decide
  have hmem : ∀ f ∈ Stmt.Form.all, f.rule ∈ standard.statements := by decide
  have hrule : ∀ r ∈ standard.statements, r = r.form.rule := by decide
  have hlast : ∀ f ∈ Stmt.Form.all, Stmt.Form.expression.level ≤ f.level := by decide
  have hf : f ∈ Stmt.Form.all := by cases f <;> decide
  refine (exists_before_iff_of_pairwise hpairwise).mpr ⟨hmem f hf, fun r hr hlt => ?_⟩
  rw [hrule r hr] at hlt
  have hleast := hlast f hf
  simp only [Stmt.Form.rule] at hlt
  constructor
  · intro he
    rw [he] at hlt
    omega
  · intro he
    rw [he] at hlt
    omega

end Grammar

end Prose
