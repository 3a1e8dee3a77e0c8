import SchemeFront.Datum.Reader
import SchemeFront.Event

set_option autoImplicit false

/-! # Transformers

A `Transformer` is an expansion rule for data. `Transformer.expand` uses a rule once at every
datum of a tree, the parts before the whole, and never at what the rule has produced; malformed
regions stay as they are. A rule may register further rules, which take effect in later
expansions only. `Expansion.ofTokens` runs a list of rules, one after the other, over the data of
a token list.
-/

namespace SchemeFront

/-- An expansion rule: the datum that takes the place of a given one, and the rules to register. A
rule has no state, and it gives the same answer for the same datum. As rules hold the rules that
they register, each comes after those: a rule that registers itself, or one of its kind at every use
without an end, is not a value of this type. -/
structure Transformer where
  name : String
  transform : Datum → Except Fault (Datum × List Transformer)

namespace Transformer

/-- The rule `name` that puts `f d` in the place of `d` and registers nothing. -/
def ofFunction (name : String) (f : Datum → Datum) : Transformer :=
  ⟨name, fun d => .ok (f d, [])⟩

/-! ## One rule -/

mutual

/-- Expand a datum: first what is in it, then the datum. -/
def expand (rule : Transformer) : Datum → Except Fault (Datum × List Transformer)
  | .leaf l s => rule.transform (.leaf l s)
  | .list ds s => do
      let (children, early) ← expandAll rule ds
      let (datum, late) ← rule.transform (.list children s)
      return (datum, early ++ late)
  | .broken ts s => .ok (.broken ts s, [])

/-- Expand a list of data from left to right. -/
def expandAll (rule : Transformer) : List Datum → Except Fault (List Datum × List Transformer)
  | [] => .ok ([], [])
  | d :: ds => do
      let (datum, early) ← expand rule d
      let (data, late) ← expandAll rule ds
      return (datum :: data, early ++ late)

end

/-! ## Several rules -/

/-- Run the rules in order, each over all data. Gives an event for every rule that was begun,
and the data with the registered rules in the order of registration. -/
def runAll : List Transformer → List Datum →
    List Event × Except Fault (List Datum × List Transformer)
  | [], data => ([], .ok (data, []))
  | rule :: rules, data =>
      match expandAll rule data with
      | .error fault => ([.applying rule.name], .error fault)
      | .ok (data, early) =>
          let (events, result) := runAll rules data
          (.applying rule.name :: events,
            result.map fun (data, late) => (data, early ++ late))

end Transformer

/-- Tokens after expansion, the rules that were registered, and the report on malformed data. -/
structure Expansion where
  tokens : List Token
  registered : List Transformer
  report? : Option Report

/-- Expand the well-formed data of a list of tokens; malformed regions keep their tokens. -/
def Expansion.ofTokens (rules : List Transformer) (limit : Int) (src : Source)
    (ts : List Token) : List Event × Except Fault Expansion :=
  match Datum.ofTokens limit src ts with
  | .error fault => ([], .error fault)
  | .ok (data, report?) =>
      let (events, result) := Transformer.runAll rules data
      (events, result.map fun (data, registered) =>
        ⟨Datum.flattenAll data, registered, report?⟩)

end SchemeFront
