/-!
# Queries for Python

The query texts for Python.
-/

namespace CodeAtlas.Query.Python

def outline : String := "(class_definition
  name: (identifier) @class.name
  superclasses: (argument_list)? @class.superclasses
  body: (block) @class.body) @class.declaration

(function_definition
  name: (identifier) @function.name
  parameters: (parameters) @function.parameters
  return_type: (_)? @function.return_type
  body: (block) @function.body) @function.declaration

; Module-level assignments only
(module
  (expression_statement
    (assignment
      left: (identifier) @variable.name)) @variable.declaration)
"

def headers : String := "(future_import_statement) @header

(import_statement) @header

(import_from_statement) @header
"

def definitions : String := "(
  (comment)* @definition
  .
  (function_definition
    name: (identifier) @name) @definition
  (#eq? @name \"\x7b\x7bSYMBOL_NAME\x7d\x7d\")
)

(
  (comment)* @definition
  .
  (decorated_definition
    definition: (function_definition
      name: (identifier) @name)) @definition
  (#eq? @name \"\x7b\x7bSYMBOL_NAME\x7d\x7d\")
)

(
  (comment)* @definition
  .
  (class_definition
    name: (identifier) @name) @definition
  (#eq? @name \"\x7b\x7bSYMBOL_NAME\x7d\x7d\")
)

(
  (comment)* @definition
  .
  (decorated_definition
    definition: (class_definition
      name: (identifier) @name)) @definition
  (#eq? @name \"\x7b\x7bSYMBOL_NAME\x7d\x7d\")
)

(
  (comment)* @definition
  .
  (expression_statement
    (assignment
      left: (identifier) @name)) @definition
  (#eq? @name \"\x7b\x7bSYMBOL_NAME\x7d\x7d\")
)
"

def parentDefinitions : String := "(
  (class_definition
    name: (identifier) @parent.name
    body: (block
      (function_definition
        name: (identifier) @name) @definition))
  (#eq? @parent.name \"\x7b\x7bPARENT_NAME\x7d\x7d\")
  (#eq? @name \"\x7b\x7bSYMBOL_NAME\x7d\x7d\")
)

(
  (class_definition
    name: (identifier) @parent.name
    body: (block
      (decorated_definition
        definition: (function_definition
          name: (identifier) @name)) @definition))
  (#eq? @parent.name \"\x7b\x7bPARENT_NAME\x7d\x7d\")
  (#eq? @name \"\x7b\x7bSYMBOL_NAME\x7d\x7d\")
)

; Class attributes
(
  (class_definition
    name: (identifier) @parent.name
    body: (block
      (expression_statement
        (assignment
          left: (identifier) @name)) @definition))
  (#eq? @parent.name \"\x7b\x7bPARENT_NAME\x7d\x7d\")
  (#eq? @name \"\x7b\x7bSYMBOL_NAME\x7d\x7d\")
)
"

end CodeAtlas.Query.Python
