import Mathlib.Control.Monad.Basic
import SignalFormula.Proofs.Words
/-!
# Notations — an expression and its postfix text compile alike

A conventional expression is assembled from its words, and its postfix text is these words with spaces between them.  No
word is empty or has white space, whatever the expression looks like, so the text is cut into the same words again and
assembling them gives the same program or the same fault (`compile_render`).  The one fault that is not found by
assembling, a bracket or comma with no bracket open, is the one for which there is no postfix text.
-/
namespace SignalFormula

namespace Program

variable {V : Type} [Scalar V] {inputs : List Text}

/-- **Assembling words blames a word or a height**, never a bracket. -/
theorem operations_ne_unopenedBracket : ∀ (words : List Text) (height peak : Nat),
    operations (V := V) inputs height peak words ≠ .error .unopenedBracket
  | [], _, _ => by simp [operations]
  | word :: words, height, peak => by
    intro h
    rw [operations] at h
    split at h
    · cases h
    · rename_i op _
      split at h
      · cases h
      · simp only at h
        split at h
        · rename_i hrest
          cases h
          exact operations_ne_unopenedBracket words _ _ hrest
        · cases h

theorem assemble_ne_unopenedBracket (words : List Text) :
    (assemble inputs words : Except CompileFault (Program V)) ≠ .error .unopenedBracket := by
  intro h
  unfold assemble at h
  split at h
  · rename_i hrun
    cases h
    exact operations_ne_unopenedBracket words 0 0 hrun
  · split at h
    · cases h
    · split at h <;> cases h

theorem mapError_eq_error_iff {α ε ε' : Type} {f : ε → ε'} {r : Except ε α} {e : ε'} :
    r.mapError f = .error e ↔ ∃ fault, r = .error fault ∧ f fault = e := by
  cases r with
  | error fault => simp [Except.mapError]
  | ok a => simp [Except.mapError]

/-- **A bracket or comma with no bracket open** is blamed exactly if there is no postfix order. -/
theorem compileConventional_eq_unopenedBracket_iff {expression : Text} {e : CompileError} :
    (compileConventional expression inputs : Except CompileError (Program V)) = .error e ∧ e.fault = .unopenedBracket ↔
      Postfix.ofText? expression = none ∧ e = ⟨.unopenedBracket, expression⟩ := by
  unfold compileConventional
  cases hwords : Postfix.ofText? expression with
  | none =>
    constructor
    · rintro ⟨h, -⟩
      exact ⟨rfl, (Except.error.inj h).symm⟩
    · rintro ⟨-, rfl⟩
      exact ⟨rfl, rfl⟩
  | some words =>
    constructor
    · rintro ⟨h, hfault⟩
      obtain ⟨fault, hassemble, rfl⟩ := mapError_eq_error_iff.1 h
      obtain rfl : fault = .unopenedBracket := hfault
      exact absurd hassemble (assemble_ne_unopenedBracket words)
    · rintro ⟨h, -⟩
      cases h

end Program

namespace Postfix

open Program (compileConventional compileReversed)

variable {V : Type} [Scalar V]

theorem render_eq_error_iff {expression : Text} {e : CompileError} :
    render expression = .error e ↔ ofText? expression = none ∧ e = ⟨.unopenedBracket, expression⟩ := by
  unfold render
  cases ofText? expression <;> simp [eq_comm]

theorem render_eq_ok_iff {expression text : Text} :
    render expression = .ok text ↔ ∃ words, ofText? expression = some words ∧ Text.unwords words = text := by
  unfold render
  cases ofText? expression <;> simp

/-- **An expression and its postfix text compile alike**: to the same program, or to the same fault, each error quoting
what was compiled.  There is no postfix text exactly if compiling the expression blames a bracket or comma with no bracket
open, and then the two errors are one, which quotes the expression. -/
theorem compile_render (expression : Text) (inputs : List Text) :
    (∀ text, render expression = .ok text → ∃ r : Except CompileFault (Program V),
      compileConventional expression inputs = r.mapError (⟨·, expression⟩) ∧
        compileReversed text inputs = r.mapError (⟨·, text⟩)) ∧
    (∀ e, render expression = .error e ↔
      (compileConventional expression inputs : Except CompileError (Program V)) = .error e ∧
        e.fault = .unopenedBracket) ∧
    ∀ e, render expression = .error e → e.expression = expression := by
  refine ⟨fun text htext => ?_, fun e => ?_, fun e he => ?_⟩
  · obtain ⟨words, hwords, rfl⟩ := render_eq_ok_iff.1 htext
    have hword : ∀ w ∈ words, w.IsWord := fun w hw => Entry.isWord (.conventional hwords) hw
    refine ⟨Program.assemble inputs words, ?_, ?_⟩
    · rw [compileConventional, hwords]
    · rw [compileReversed, Text.words_unwords words hword]
  · rw [render_eq_error_iff, Program.compileConventional_eq_unopenedBracket_iff]
  · rw [(render_eq_error_iff.1 he).2]

/-- A bracket that is never closed, after a white space character beyond ASCII; and one that is never opened. -/
theorem compile_render_unclosed_bracket :
    let inputs : List Text := ["x".toList]
    let expression : Text := "max((1,\u3000x) * 2".toList
    let text : Text := "1 x 2 * ( max".toList
    render expression = .ok text ∧
      (compileConventional expression inputs : Except CompileError (Program Double)) =
        .error ⟨.unknownToken ['('], expression⟩ ∧
      (compileReversed text inputs : Except CompileError (Program Double)) = .error ⟨.unknownToken ['('], text⟩ ∧
      (compileConventional "1)".toList inputs : Except CompileError (Program Double)) =
        .error ⟨.unopenedBracket, "1)".toList⟩ := by
  intro inputs expression text
  have htext : render expression = .ok text := by decide +kernel
  have hconventional : (compileConventional expression inputs : Except CompileError (Program Double)) =
      .error ⟨.unknownToken ['('], expression⟩ := by decide +kernel
  have hunopened : render "1)".toList = .error ⟨.unopenedBracket, "1)".toList⟩ := by decide +kernel
  obtain ⟨r, hr, hreversed⟩ := (compile_render (V := Double) expression inputs).1 text htext
  obtain ⟨fault, rfl, hfault⟩ := Program.mapError_eq_error_iff.1 (hr.symm.trans hconventional)
  obtain rfl : fault = .unknownToken ['('] := (CompileError.mk.inj hfault).1
  exact ⟨htext, hconventional, hreversed,
    (((compile_render (V := Double) "1)".toList inputs).2.1 _).1 hunopened).1⟩

end Postfix

end SignalFormula
