/-!
# Queries for TypeScript

The query texts for TypeScript, with and without markup in it.
-/

namespace CodeAtlas.Query.TypeScript

def outline : String := "; Functions
(
  (comment)* @function.doc
  .
  (function_declaration
    name: (identifier) @function.name
    parameters: (formal_parameters) @function.parameters
    return_type: (_)? @function.return_type
    body: (statement_block) @function.body) @function.declaration
)

(
  (comment)* @function.doc
  .
  (export_statement
    declaration: (function_declaration
      name: (identifier) @function.name
      parameters: (formal_parameters) @function.parameters
      return_type: (_)? @function.return_type
      body: (statement_block) @function.body) @function.declaration)
)

(
  (comment)* @function.doc
  .
  (generator_function_declaration
    name: (identifier) @function.name
    parameters: (formal_parameters) @function.parameters
    body: (statement_block) @function.body) @function.declaration
)

; Classes
(
  (comment)* @class.doc
  .
  (class_declaration
    name: (type_identifier) @class.name
    body: (class_body) @class.body) @class.declaration
)

(
  (comment)* @class.doc
  .
  (export_statement
    declaration: (class_declaration
      name: (type_identifier) @class.name
      body: (class_body) @class.body) @class.declaration)
)

(
  (comment)* @class.doc
  .
  (abstract_class_declaration
    name: (type_identifier) @class.name
    body: (class_body) @class.body) @class.declaration
)

(
  (comment)* @class.doc
  .
  (export_statement
    declaration: (abstract_class_declaration
      name: (type_identifier) @class.name
      body: (class_body) @class.body) @class.declaration)
)

; Class members
(
  (comment)* @method.doc
  .
  (method_definition
    name: (_) @method.name
    parameters: (formal_parameters) @method.parameters
    return_type: (_)? @method.return_type
    body: (statement_block) @method.body) @method.declaration
)

(
  (comment)* @field.doc
  .
  (public_field_definition
    name: (_) @field.name) @field.declaration
)

; Interfaces, type aliases and enums are emitted whole
(
  (comment)* @interface.doc
  .
  (interface_declaration
    name: (type_identifier) @interface.name) @interface.declaration
)

(
  (comment)* @interface.doc
  .
  (export_statement
    declaration: (interface_declaration
      name: (type_identifier) @interface.name) @interface.declaration)
)

(
  (comment)* @type.doc
  .
  (type_alias_declaration
    name: (type_identifier) @type.name) @type.declaration
)

(
  (comment)* @type.doc
  .
  (export_statement
    declaration: (type_alias_declaration
      name: (type_identifier) @type.name) @type.declaration)
)

(
  (comment)* @enum.doc
  .
  (enum_declaration
    name: (identifier) @enum.name) @enum.declaration
)

(
  (comment)* @enum.doc
  .
  (export_statement
    declaration: (enum_declaration
      name: (identifier) @enum.name) @enum.declaration)
)

; Top-level variables
(
  (comment)* @variable.doc
  .
  (lexical_declaration
    (variable_declarator
      name: (identifier) @variable.name)) @variable.declaration
)

(
  (comment)* @variable.doc
  .
  (export_statement
    declaration: (lexical_declaration
      (variable_declarator
        name: (identifier) @variable.name)) @variable.declaration)
)

(
  (comment)* @non_lexical_variable.doc
  .
  (variable_declaration
    (variable_declarator
      name: (identifier) @non_lexical_variable.name)) @non_lexical_variable.declaration
)
"

def headers : String := "(import_statement) @header
"

def definitions : String := "(
  (comment)* @definition
  .
  [
    (function_declaration
      name: (identifier) @name)
    (generator_function_declaration
      name: (identifier) @name)
    (class_declaration
      name: (type_identifier) @name)
    (abstract_class_declaration
      name: (type_identifier) @name)
    (interface_declaration
      name: (type_identifier) @name)
    (type_alias_declaration
      name: (type_identifier) @name)
    (enum_declaration
      name: (identifier) @name)
    (lexical_declaration
      (variable_declarator
        name: (identifier) @name))
    (variable_declaration
      (variable_declarator
        name: (identifier) @name))
  ] @definition
  (#eq? @name \"\x7b\x7bSYMBOL_NAME\x7d\x7d\")
)

(
  (comment)* @definition
  .
  (export_statement
    declaration: [
      (function_declaration
        name: (identifier) @name)
      (class_declaration
        name: (type_identifier) @name)
      (abstract_class_declaration
        name: (type_identifier) @name)
      (interface_declaration
        name: (type_identifier) @name)
      (type_alias_declaration
        name: (type_identifier) @name)
      (enum_declaration
        name: (identifier) @name)
      (lexical_declaration
        (variable_declarator
          name: (identifier) @name))
    ]) @definition
  (#eq? @name \"\x7b\x7bSYMBOL_NAME\x7d\x7d\")
)

(
  (comment)* @definition
  .
  [
    (method_definition
      name: (_) @name)
    (public_field_definition
      name: (_) @name)
  ] @definition
  (#eq? @name \"\x7b\x7bSYMBOL_NAME\x7d\x7d\")
)
"

def parentDefinitions : String := "(
  (class_declaration
    name: (type_identifier) @parent.name
    body: (class_body
      [
        (method_definition
          name: (_) @name)
        (public_field_definition
          name: (_) @name)
      ] @definition))
  (#eq? @parent.name \"\x7b\x7bPARENT_NAME\x7d\x7d\")
  (#eq? @name \"\x7b\x7bSYMBOL_NAME\x7d\x7d\")
)

(
  (abstract_class_declaration
    name: (type_identifier) @parent.name
    body: (class_body
      [
        (method_definition
          name: (_) @name)
        (public_field_definition
          name: (_) @name)
      ] @definition))
  (#eq? @parent.name \"\x7b\x7bPARENT_NAME\x7d\x7d\")
  (#eq? @name \"\x7b\x7bSYMBOL_NAME\x7d\x7d\")
)

(
  (interface_declaration
    name: (type_identifier) @parent.name
    body: (_
      [
        (property_signature
          name: (_) @name)
        (method_signature
          name: (_) @name)
      ] @definition))
  (#eq? @parent.name \"\x7b\x7bPARENT_NAME\x7d\x7d\")
  (#eq? @name \"\x7b\x7bSYMBOL_NAME\x7d\x7d\")
)
"

end CodeAtlas.Query.TypeScript
