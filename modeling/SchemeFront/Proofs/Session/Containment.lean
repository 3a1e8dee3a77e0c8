import SchemeFront.Proofs.Parse.Containment
import SchemeFront.Proofs.Session.Totality

set_option autoImplicit false

/-! # Spans in the programs of a session

What is written in a source, and what the rule for sequences makes of it, has spans inside the
source that nest, whether or not it is well formed (`Session.nodes_nest_of_parseLenient`). A
procedure that stands for a sequence runs from its name to the end of its form, and so keeps the
tokens in the order that parsing needs.
-/

namespace SchemeFront

open Token

variable {src : Source} {l : Lexed}

/-- The spans of the program that tokens in order are nest. -/
theorem Body.nests_of_ofTokens {ts : List Token} {P : Lexeme → Prop} {limit : Int} {p : Program}
    {notes : List Diagnostic} (hasc : Ascending ts) (henc : Enclosing ts)
    (hwithin : Between P 0 src.text.length ts) (hp : ofTokens limit src ts = .ok (p, notes)) :
    ∀ n ∈ p.nodes, n.Nests 0 src.text.length := by
  have horderly : Orderly 0 src.text.length ts := by
    refine ⟨fun t ht => ?_, hasc, henc⟩
    obtain ⟨hlo, -, hhi⟩ := hwithin.bounds t ht
    exact ⟨hlo, hhi⟩
  unfold ofTokens at hp
  cases hr : Parse.program (Context.ofSource limit src) { rest := ts } with
  | done q trace after =>
      rw [hr] at hp
      cases hp
      exact Parse.nests_of_program horderly (Int.natCast_nonneg _) (Int.le_refl _) hr
  | failed why trace after =>
      rw [hr] at hp
      cases hp
  | fault fault =>
      rw [hr] at hp
      cases hp

namespace Session

/-- **Spans nest.** A source without stray characters or numbers of too many digits gives a
program, all nodes of which lie in the source and contain the nodes right below them. -/
theorem nodes_nest_of_parseLenient (src : Source) (l : Lexed) (s : Session)
    (hregistry : s.registry = Transformer.builtin) (hl : Lexed.ofSource src = .ok l)
    (hnone : l.diagnostics = []) :
    ∃ p report?, answer (parseLenient src) s = .ok (some p, report?) ∧
      ∀ n ∈ p.nodes, 0 ≤ n.span.start ∧ n.span.start ≤ n.span.stop ∧
        n.span.stop ≤ src.text.length ∧ ∀ m ∈ n.children, n.span.contains m.span = true := by
  have hreport : l.report? src = none := by
    rw [Lexed.report?, Report.of?, hnone]
    rfl
  have hrules : ∀ r ∈ s.registry, r = Transformer.sequence := by
    rw [hregistry]
    simp [Transformer.builtin]
  obtain ⟨events, x, notes, hx, hreg, hasc, henc, hwithin, -, -⟩ :=
    Expansion.exists_ofTokens_eq_ok (P := fun _ => True) hrules s.limit (fun _ => trivial) hl
      (fun _ _ => trivial)
  obtain ⟨p, found, hp, -⟩ :=
    Body.exists_ofTokens_eq_ok (P := fun _ => True) s.limit src hasc fun _ _ => trivial
  have hanswer := answer_parseLenientTokens_of_ok
    (s := s.withEvents (s.events ++ [.lexed src.path l.tokens.length l.diagnostics.length]))
    hx hreg hp
  refine ⟨p, _, answer_parseLenient_of_tokens hl hreport hanswer, ?_⟩
  intro n hn
  have hnests := Body.nests_of_ofTokens hasc henc hwithin hp n hn
  exact ⟨hnests.start, n.span.start_le_stop, hnests.stop, hnests.contains⟩

/-- Sequences inside each other, a bracket too many and one too few, where one level is allowed. -/
theorem nodes_nest_of_parseLenient_brackets :
    ∃ l, Lexed.ofSource ⟨"a.scm", "(begin (begin x 1.5) y)) (z".toList⟩ = .ok l ∧
      l.diagnostics = [] ∧
      ∃ p report?, answer (parseLenient ⟨"a.scm", "(begin (begin x 1.5) y)) (z".toList⟩)
          ⟨Transformer.builtin, 1, []⟩ = .ok (some p, report?) ∧
        ∀ n ∈ p.nodes, 0 ≤ n.span.start ∧ n.span.start ≤ n.span.stop ∧
          n.span.stop ≤ ("(begin (begin x 1.5) y)) (z".toList).length ∧
          ∀ m ∈ n.children, n.span.contains m.span = true :=
  ⟨_, rfl, rfl, nodes_nest_of_parseLenient _ _ ⟨Transformer.builtin, 1, []⟩ rfl rfl rfl⟩

end Session

end SchemeFront
