import RowPipeline.Clause.Grammar

namespace RowPipeline

-- A host may have a grammar of its own.
structure ClauseParser where
  parse : String → Except Error Clause

namespace ClauseParser

-- The grammar of clauses. With a binding, paths are checked.
def standard (binding : Option Binding) : ClauseParser where
  parse text := (Clause.parse binding text).mapError .clauseSyntax

end ClauseParser
end RowPipeline
