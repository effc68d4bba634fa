/-!
# Queries for Java

The query texts for Java.
-/

namespace CodeAtlas.Query.Java

def outline : String := "(
  [(line_comment) (block_comment)]* @class.doc
  .
  (class_declaration
    name: (identifier) @class.name
    body: (class_body) @class.body) @class.declaration
)

(
  [(line_comment) (block_comment)]* @interface.doc
  .
  (interface_declaration
    name: (identifier) @interface.name
    body: (interface_body) @interface.body) @interface.declaration
)

(
  [(line_comment) (block_comment)]* @enum.doc
  .
  (enum_declaration
    name: (identifier) @enum.name
    body: (enum_body) @enum.body) @enum.declaration
)

(
  [(line_comment) (block_comment)]* @record.doc
  .
  (record_declaration
    name: (identifier) @record.name) @record.declaration
)

(
  [(line_comment) (block_comment)]* @method.doc
  .
  (method_declaration
    name: (identifier) @method.name) @method.declaration
)

(
  [(line_comment) (block_comment)]* @constructor.doc
  .
  (constructor_declaration
    name: (identifier) @constructor.name) @constructor.declaration
)

(
  [(line_comment) (block_comment)]* @field.doc
  .
  (field_declaration
    declarator: (variable_declarator
      name: (identifier) @field.name)) @field.declaration
)
"

def headers : String := "(package_declaration) @header

(import_declaration) @header
"

def definitions : String := "(
  [(line_comment) (block_comment)]* @definition
  .
  [
    (class_declaration
      name: (identifier) @name)
    (interface_declaration
      name: (identifier) @name)
    (enum_declaration
      name: (identifier) @name)
    (record_declaration
      name: (identifier) @name)
    (method_declaration
      name: (identifier) @name)
    (constructor_declaration
      name: (identifier) @name)
    (field_declaration
      declarator: (variable_declarator
        name: (identifier) @name))
  ] @definition
  (#eq? @name \"\x7b\x7bSYMBOL_NAME\x7d\x7d\")
)
"

def parentDefinitions : String := "(
  (class_declaration
    name: (identifier) @parent.name
    body: (class_body
      [
        (method_declaration
          name: (identifier) @name)
        (constructor_declaration
          name: (identifier) @name)
        (field_declaration
          declarator: (variable_declarator
            name: (identifier) @name))
        (class_declaration
          name: (identifier) @name)
      ] @definition))
  (#eq? @parent.name \"\x7b\x7bPARENT_NAME\x7d\x7d\")
  (#eq? @name \"\x7b\x7bSYMBOL_NAME\x7d\x7d\")
)

(
  (interface_declaration
    name: (identifier) @parent.name
    body: (interface_body
      (method_declaration
        name: (identifier) @name) @definition))
  (#eq? @parent.name \"\x7b\x7bPARENT_NAME\x7d\x7d\")
  (#eq? @name \"\x7b\x7bSYMBOL_NAME\x7d\x7d\")
)

(
  (enum_declaration
    name: (identifier) @parent.name
    body: (enum_body
      (enum_constant
        name: (identifier) @name) @definition))
  (#eq? @parent.name \"\x7b\x7bPARENT_NAME\x7d\x7d\")
  (#eq? @name \"\x7b\x7bSYMBOL_NAME\x7d\x7d\")
)
"

end CodeAtlas.Query.Java
