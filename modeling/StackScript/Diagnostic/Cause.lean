import StackScript.Fault

namespace StackScript

/-! What a compilation ends with: success, an error, or the rule or check that failed. -/

inductive Cause where
  | ok
  | error
  | compilationUnit
  | assignmentExpression
  | assignmentOperator
  | conditionalExpression
  | logicalOrExpression
  | condExpMissingColon
  | logicalAndExpression
  | relationalExpression
  | relationOperator
  | additiveExpression
  | additiveOperator
  | multExpression
  | multOperator
  | unaryExpression
  | unaryOperator
  | postfixExpression
  | arrayIndex
  | argumentList
  | argumentListExpression
  | identifier
  | primaryExpression
  | stringExpression
  | unsignedInteger
  | unsignedFloat
  | variableDeclaration
  | duplicateVariableDeclaration
  | typeDeclaration
  | indexTypeDeclaration
  | identifierReservedWord
  | assignmentDatatype
  | unknownIdentifier
  | arrayDatatype
  | datatypeMismatch
  | conditionalExpressionStatementsDatatypes
  | conditionalExpressionConditionDatatype
  | expectedBooleanDatatype
  | conditionalExpressionFalse
  | conditionalExpressionTrue
  | booleanValue
  | literals
  | missingFunctionArgumentList
  | incompatibleFunctionArguments
  | blockStatement
  | argumentListDeclaration
  | functionTypeDeclaration
  | functionNameInUse
  | functionDefinition
  | functionParametersDeclaration
  | typeDeclarationMissingOf
  | typeDeclarationMissingClosingBracket
  | typeDeclarationMissingOpeningBracket
  | primaryExpressionMissingClosingBracket
  | nestingTooDeep
  deriving DecidableEq, Repr, Inhabited

namespace Cause

def all : List Cause :=
  [.ok, .error, .compilationUnit, .assignmentExpression, .assignmentOperator,
    .conditionalExpression, .logicalOrExpression, .condExpMissingColon, .logicalAndExpression,
    .relationalExpression, .relationOperator, .additiveExpression, .additiveOperator,
    .multExpression, .multOperator, .unaryExpression, .unaryOperator, .postfixExpression,
    .arrayIndex, .argumentList, .argumentListExpression, .identifier, .primaryExpression,
    .stringExpression, .unsignedInteger, .unsignedFloat, .variableDeclaration,
    .duplicateVariableDeclaration, .typeDeclaration, .indexTypeDeclaration,
    .identifierReservedWord, .assignmentDatatype, .unknownIdentifier, .arrayDatatype,
    .datatypeMismatch, .conditionalExpressionStatementsDatatypes,
    .conditionalExpressionConditionDatatype, .expectedBooleanDatatype,
    .conditionalExpressionFalse, .conditionalExpressionTrue, .booleanValue, .literals,
    .missingFunctionArgumentList, .incompatibleFunctionArguments, .blockStatement,
    .argumentListDeclaration, .functionTypeDeclaration, .functionNameInUse, .functionDefinition,
    .functionParametersDeclaration, .typeDeclarationMissingOf,
    .typeDeclarationMissingClosingBracket, .typeDeclarationMissingOpeningBracket,
    .primaryExpressionMissingClosingBracket, .nestingTooDeep]

def name : Cause → String
  | .ok => "PARSE_OK"
  | .error => "PARSE_ERROR"
  | .compilationUnit => "PARSE_ERROR_COMPILATION_UNIT"
  | .assignmentExpression => "PARSE_ERROR_ASSIGNMENT_EXPRESSION"
  | .assignmentOperator => "PARSE_ERROR_ASSIGNMENT_OPERATOR"
  | .conditionalExpression => "PARSE_ERROR_CONDITIONAL_EXPRESSION"
  | .logicalOrExpression => "PARSE_ERROR_LOGICAL_OR_EXPRESSION"
  | .condExpMissingColon => "PARSE_ERROR_COND_EXP_MISSING_COLON"
  | .logicalAndExpression => "PARSE_ERROR_LOGICAL_AND_EXPRESSION"
  | .relationalExpression => "PARSE_ERROR_RELATIONAL_EXPRESSION"
  | .relationOperator => "PARSE_ERROR_RELATION_OPERATOR"
  | .additiveExpression => "PARSE_ERROR_ADDITIVE_EXPRESSION"
  | .additiveOperator => "PARSE_ERROR_ADDITIVE_OPERATOR"
  | .multExpression => "PARSE_ERROR_MULT_EXPRESSION"
  | .multOperator => "PARSE_ERROR_MULT_OPERATOR"
  | .unaryExpression => "PARSE_ERROR_UNARY_EXPRESSION"
  | .unaryOperator => "PARSE_ERROR_UNARY_OPERATOR"
  | .postfixExpression => "PARSE_ERROR_POSTFIX_EXPRESSION"
  | .arrayIndex => "PARSE_ERROR_ARRAY_INDEX"
  | .argumentList => "PARSE_ERROR_ARGUMENT_LIST"
  | .argumentListExpression => "PARSE_ERROR_ARGUMENTLIST_EXPRESSION"
  | .identifier => "PARSE_ERROR_IDENTIFIER"
  | .primaryExpression => "PARSE_ERROR_PRIMARY_EXPRESSION"
  | .stringExpression => "PARSE_ERROR_STRING_EXPRESSION"
  | .unsignedInteger => "PARSE_ERROR_UNSIGNED_INTEGER"
  | .unsignedFloat => "PARSE_ERROR_UNSIGNED_FLOAT"
  | .variableDeclaration => "PARSE_ERROR_VARIABLE_DECLARATION"
  | .duplicateVariableDeclaration => "PARSE_ERROR_DUPLICATE_VARIABLE_DECLARATION"
  | .typeDeclaration => "PARSE_ERROR_TYPE_DECLARATION"
  | .indexTypeDeclaration => "PARSE_ERROR_INDEX_TYPE_DECLARATION"
  | .identifierReservedWord => "PARSE_ERROR_IDENTIFIER_RESERVED_WORD"
  | .assignmentDatatype => "PARSE_ERROR_ASSIGNMENT_DATATYPE"
  | .unknownIdentifier => "PARSE_ERROR_UNKNOWN_IDENTIFIER"
  | .arrayDatatype => "PARSE_ERROR_ARRAY_DATATYPE"
  | .datatypeMismatch => "PARSE_ERROR_DATATYPE_MISMATCH"
  | .conditionalExpressionStatementsDatatypes =>
      "PARSE_ERROR_CONDITIONAL_EXPRESSION_STATEMENTS_DATATYPES"
  | .conditionalExpressionConditionDatatype =>
      "PARSE_ERROR_CONDITIONAL_EXPRESSION_CONDITION_DATATYPE"
  | .expectedBooleanDatatype => "PARSE_ERROR_EXPECTED_BOOLEAN_DATATYPE"
  | .conditionalExpressionFalse => "PARSE_ERROR_CONDITIONAL_EXPRESSION_FALSE"
  | .conditionalExpressionTrue => "PARSE_ERROR_CONDITIONAL_EXPRESSION_TRUE"
  | .booleanValue => "PARSE_ERROR_BOOLEAN_VALUE"
  | .literals => "PARSE_ERROR_LITERALS"
  | .missingFunctionArgumentList => "PARSE_ERROR_MISSING_FUNCTION_ARGUMENT_LIST"
  | .incompatibleFunctionArguments => "PARSE_ERROR_INCOMPATIBLE_FUNCTION_ARGUMENTS"
  | .blockStatement => "PARSE_ERROR_BLOCK_STATEMENT"
  | .argumentListDeclaration => "PARSE_ERROR_ARGUMENT_LIST_DECLARATION"
  | .functionTypeDeclaration => "PARSE_ERROR_FUNCTION_TYPE_DECLARATION"
  | .functionNameInUse => "PARSE_ERROR_FUNCTION_NAME_IN_USE"
  | .functionDefinition => "PARSE_ERROR_FUNCTION_DEFINITION"
  | .functionParametersDeclaration => "PARSE_ERROR_FUNCTION_PARAMETERS_DECLARATION"
  | .typeDeclarationMissingOf => "PARSE_ERROR_TYPE_DECLARATION_MISSING_OF"
  | .typeDeclarationMissingClosingBracket =>
      "PARSE_ERROR_TYPE_DECLARATION_MISSING_CLOSING_BRACKET"
  | .typeDeclarationMissingOpeningBracket =>
      "PARSE_ERROR_TYPE_DECLARATION_MISSING_OPENING_BRACKET"
  | .primaryExpressionMissingClosingBracket =>
      "PARSE_ERROR_PRIMARY_EXPRESSION_MISSING_CLOSING_BRACKET"
  | .nestingTooDeep => "PARSE_ERROR_NESTING_TOO_DEEP"

def isOk (cause : Cause) : Bool :=
  cause = .ok

def description : Cause → String
  | .duplicateVariableDeclaration => "Variable is already declared in this scope"
  | .functionNameInUse => "Function name is already in use"
  | .unknownIdentifier => "Unknown identifier"
  | .identifierReservedWord => "Reserved word used as an identifier"
  | .datatypeMismatch | .assignmentDatatype => "Datatype mismatch"
  | .expectedBooleanDatatype | .conditionalExpressionConditionDatatype =>
      "Expected a boolean expression"
  | .conditionalExpressionStatementsDatatypes =>
      "Conditional branches have inconsistent datatypes"
  | .incompatibleFunctionArguments => "Arguments do not match the function parameters"
  | .arrayDatatype => "Index list does not match the array declaration"
  | .missingFunctionArgumentList => "Function call requires an argument list"
  | .condExpMissingColon => "Expected ':' in conditional expression"
  | .typeDeclarationMissingOf => "Expected 'of' in array type"
  | .typeDeclarationMissingOpeningBracket => "Expected '[' in array type"
  | .typeDeclarationMissingClosingBracket => "Expected ']' in array type"
  | .primaryExpressionMissingClosingBracket => "Expected ']' after index list"
  | .stringExpression => "Malformed string literal"
  | .unsignedFloat => "Malformed float literal"
  | .nestingTooDeep => "Expression or block nested too deeply"
  | .ok => "Compiled successfully"
  | _ => "Syntax error"

def errorKind : Cause → ErrorKind
  | .duplicateVariableDeclaration | .functionNameInUse | .unknownIdentifier
  | .identifierReservedWord => .nameError
  | .datatypeMismatch | .assignmentDatatype | .expectedBooleanDatatype
  | .conditionalExpressionConditionDatatype | .conditionalExpressionStatementsDatatypes
  | .incompatibleFunctionArguments | .arrayDatatype => .typeError
  | _ => .syntaxError

end Cause

end StackScript
