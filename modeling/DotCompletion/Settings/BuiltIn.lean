import DotCompletion.Settings.FromYaml

/-!
# Built-in templates

The templates that are used when the user gives none. They are written as a
settings file, which users can take as a model for their own.
-/

namespace DotCompletion.Settings

/-- The lines of the built-in settings file. -/
def builtInLines : List String :=
  ["# Default postfix templates. $expr is the chosen expression, $type its static",
   "# type (or var when unknown). The rest of a body is LSP snippet syntax.",
   "templates:",
   "  - name: if",
   "    description: Checks boolean expression to be 'true'",
   "    example: \"if (expr)\"",
   "    statement: true",
   "    types: [boolean]",
   "    body: \"if ($expr) \x7b\\n\\t$0\\n\x7d\"",
   "",
   "  - name: else",
   "    description: Checks boolean expression to be 'false'",
   "    example: \"if (!expr)\"",
   "    statement: true",
   "    types: [boolean]",
   "    body: \"if (!($expr)) \x7b\\n\\t$0\\n\x7d\"",
   "",
   "  - name: while",
   "    description: Iterates while boolean expression is 'true'",
   "    example: \"while (expr)\"",
   "    statement: true",
   "    types: [boolean]",
   "    body: \"while ($expr) \x7b\\n\\t$0\\n\x7d\"",
   "",
   "  - name: not",
   "    description: Negates boolean expression",
   "    example: \"!expr\"",
   "    types: [boolean]",
   "    parenthesize: true",
   "    body: \"!$expr$0\"",
   "",
   "  - name: assert",
   "    description: Creates assertion from boolean expression",
   "    example: \"assert expr;\"",
   "    statement: true",
   "    types: [boolean]",
   "    body: \"assert $expr;$0\"",
   "",
   "  - name: nn",
   "    description: Checks expression to be not-null",
   "    example: \"if (expr != null)\"",
   "    statement: true",
   "    types: [object]",
   "    body: \"if ($expr != null) \x7b\\n\\t$0\\n\x7d\"",
   "",
   "  - name: \"null\"",
   "    description: Checks expression to be null",
   "    example: \"if (expr == null)\"",
   "    statement: true",
   "    types: [object]",
   "    body: \"if ($expr == null) \x7b\\n\\t$0\\n\x7d\"",
   "",
   "  - name: notnull",
   "    description: Checks expression to be not-null",
   "    example: \"if (expr != null)\"",
   "    statement: true",
   "    types: [object]",
   "    body: \"if ($expr != null) \x7b\\n\\t$0\\n\x7d\"",
   "",
   "  - name: var",
   "    description: Introduces variable for expression",
   "    example: \"T name = expr;\"",
   "    statement: true",
   "    outermost: true",
   "    body: \"$\x7b1:$type\x7d $\x7b2:name\x7d = $expr;$0\"",
   "",
   "  - name: return",
   "    description: Returns value from containing method",
   "    example: \"return expr;\"",
   "    statement: true",
   "    outermost: true",
   "    body: \"return $expr;$0\"",
   "",
   "  - name: throw",
   "    description: Throws expression of 'Throwable' type",
   "    example: \"throw expr;\"",
   "    statement: true",
   "    body: \"throw $expr;$0\"",
   "",
   "  - name: sout",
   "    description: Prints expression to standard output",
   "    example: \"System.out.println(expr);\"",
   "    statement: true",
   "    outermost: true",
   "    body: \"System.out.println($expr);$0\"",
   "",
   "  - name: serr",
   "    description: Prints expression to standard error",
   "    example: \"System.err.println(expr);\"",
   "    statement: true",
   "    outermost: true",
   "    body: \"System.err.println($expr);$0\"",
   "",
   "  - name: par",
   "    description: Parenthesizes current expression",
   "    example: \"(expr)\"",
   "    body: \"($expr)$0\"",
   "",
   "  - name: cast",
   "    description: Surrounds expression with cast",
   "    example: \"((SomeType) expr)\"",
   "    parenthesize: true",
   "    body: \"(($\x7b1:Type\x7d) $expr)$0\"",
   "",
   "  - name: for",
   "    description: Iterates over enumerable collection",
   "    example: \"for (T item : expr)\"",
   "    statement: true",
   "    body: \"for ($\x7b1:var\x7d $\x7b2:item\x7d : $expr) \x7b\\n\\t$0\\n\x7d\"",
   "",
   "  - name: fori",
   "    description: Iterates with index up to the number",
   "    example: \"for (int i = 0; i < expr; i++)\"",
   "    statement: true",
   "    types: [number]",
   "    body: \"for (int $\x7b1:i\x7d = 0; $1 < $expr; $1++) \x7b\\n\\t$0\\n\x7d\"",
   "",
   "  - name: forr",
   "    description: Iterates with index down from the number",
   "    example: \"for (int i = expr; i > 0; i--)\"",
   "    statement: true",
   "    types: [number]",
   "    body: \"for (int $\x7b1:i\x7d = $expr; $1 > 0; $1--) \x7b\\n\\t$0\\n\x7d\"",
   "",
   "  - name: switch",
   "    description: Produces switch over expression",
   "    example: \"switch (expr)\"",
   "    statement: true",
   "    body: \"switch ($expr) \x7b\\n\\t$0\\n\x7d\"",
   "",
   "  - name: synchronized",
   "    description: Produces synchronized block",
   "    example: \"synchronized (expr)\"",
   "    statement: true",
   "    types: [object]",
   "    body: \"synchronized ($expr) \x7b\\n\\t$0\\n\x7d\"",
   "",
   "  - name: arg",
   "    description: Surrounds expression with invocation",
   "    example: \"call(expr)\"",
   "    body: \"$\x7b1:call\x7d($expr)$0\"",
   "",
   "  - name: new",
   "    description: Produces instantiation expression for type",
   "    example: \"new T()\"",
   "    body: \"new $expr($0)\""]

/-- The built-in settings file. -/
def builtInText : String :=
  String.join (builtInLines.map fun line => line ++ "\n")

/-- The built-in templates. -/
def builtIn : List Template :=
  (decodeYaml? (Bytes.ofString builtInText)).getD []

end DotCompletion.Settings
