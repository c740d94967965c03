import GraphQuery.Error
import GraphQuery.Settings

namespace GraphQuery

inductive QueryKind where
  | query | transformation
deriving Repr, DecidableEq

def QueryKind.name : QueryKind → String
  | query => "Query"
  | transformation => "Transformation"

structure Query where
  source : Expr
  script : Script
  input : Handle
  output : Option Handle
  settings : Settings

namespace Query

def ofExpr (source : Expr) (input : Handle) (output : Option Handle) (settings : Settings) :
    Except Compile.Error Query := do
  let script ← source.compile settings.metamodel settings.checkInvariants
  return ⟨source, script, input, output, settings⟩

def parse (text : String) (input : Handle) (output : Option Handle) (settings : Settings) :
    Except Error Query := do
  let source ← (Expr.parse text).mapError .parse
  (ofExpr source input output settings).mapError .ofCompile

def kind (q : Query) : QueryKind :=
  if q.output.isSome then .transformation else .query

def scriptText (q : Query) : String :=
  q.script.print q.settings.print

def executor (q : Query) : Executor :=
  ⟨q.input, q.output, q.settings.resultLimit⟩

def execute (q : Query) (parameters : Parameters) (stores : Stores) :
    Except ExecutionError QueryResult × Stores :=
  q.executor.execute q.script parameters stores

def describe (q : Query) : String :=
  "Query \x7b source: " ++ Text.quoted q.source.display ++ ", kind: " ++ q.kind.name ++ ", input: " ++
    Text.quoted q.input.name ++ ", output: " ++
    (match q.output with
      | none => "None"
      | some h => "Some(" ++ Text.quoted h.name ++ ")") ++ " \x7d"

end Query

end GraphQuery
