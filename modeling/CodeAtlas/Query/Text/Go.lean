/-!
# Queries for Go

The query texts for Go.
-/

namespace CodeAtlas.Query.Go

def outline : String :=
  "; Functions and methods: the header is rebuilt from its parts, the body is dropped
(
  (comment)* @function.doc
  .
  (function_declaration
    name: (identifier) @function.name
    parameters: (parameter_list) @function.parameters
    result: (_)? @function.result
    body: (block)? @function.body) @function.declaration
)

(
  (comment)* @method.doc
  .
  (method_declaration
    receiver: (parameter_list) @method.receiver
    name: (field_identifier) @method.name
    parameters: (parameter_list) @method.parameters
    result: (_)? @method.result
    body: (block)? @method.body) @method.declaration
)

; Type, const and var blocks are emitted whole
(
  (comment)* @type.doc
  .
  (type_declaration) @type.declaration
)

(
  (comment)* @const.doc
  .
  (const_declaration) @const.declaration
)

(
  (comment)* @var.doc
  .
  (var_declaration) @var.declaration
)

; Names inside those blocks, listed as symbols
(type_spec
  name: (type_identifier) @type.name)

(type_alias
  name: (type_identifier) @type.name)

(const_spec
  name: (identifier) @const.name)

(var_spec
  name: (identifier) @var.name)
"

def headers : String := "(package_clause) @header

(import_declaration) @header
"

def definitions : String := "(
  (comment)* @definition
  .
  (function_declaration
    name: (identifier) @name) @definition
  (#eq? @name \"\x7b\x7bSYMBOL_NAME\x7d\x7d\")
)

(
  (comment)* @definition
  .
  (method_declaration
    name: (field_identifier) @name) @definition
  (#eq? @name \"\x7b\x7bSYMBOL_NAME\x7d\x7d\")
)

(
  (comment)* @definition
  .
  (type_declaration
    (type_spec
      name: (type_identifier) @name)) @definition
  (#eq? @name \"\x7b\x7bSYMBOL_NAME\x7d\x7d\")
)

(
  (comment)* @definition
  .
  (type_declaration
    (type_alias
      name: (type_identifier) @name)) @definition
  (#eq? @name \"\x7b\x7bSYMBOL_NAME\x7d\x7d\")
)

(
  (comment)* @definition
  .
  (const_declaration
    (const_spec
      name: (identifier) @name)) @definition
  (#eq? @name \"\x7b\x7bSYMBOL_NAME\x7d\x7d\")
)

(
  (comment)* @definition
  .
  (var_declaration
    (var_spec
      name: (identifier) @name)) @definition
  (#eq? @name \"\x7b\x7bSYMBOL_NAME\x7d\x7d\")
)

(
  (short_var_declaration
    left: (expression_list
      (identifier) @name)) @definition
  (#eq? @name \"\x7b\x7bSYMBOL_NAME\x7d\x7d\")
)
"

def parentDefinitions : String := "; Methods by receiver type, with or without a pointer
(
  (comment)* @definition
  .
  (method_declaration
    receiver: (parameter_list
      (parameter_declaration
        type: [
          (type_identifier) @parent.name
          (pointer_type
            (type_identifier) @parent.name)
        ]))
    name: (field_identifier) @name) @definition
  (#eq? @parent.name \"\x7b\x7bPARENT_NAME\x7d\x7d\")
  (#eq? @name \"\x7b\x7bSYMBOL_NAME\x7d\x7d\")
)

; Struct fields
(
  (type_spec
    name: (type_identifier) @parent.name
    type: (struct_type
      (field_declaration_list
        (field_declaration
          name: (field_identifier) @name) @definition)))
  (#eq? @parent.name \"\x7b\x7bPARENT_NAME\x7d\x7d\")
  (#eq? @name \"\x7b\x7bSYMBOL_NAME\x7d\x7d\")
)
"

end CodeAtlas.Query.Go
