import JsonRules.Json.Document
import JsonRules.Rule.Operator

/-!
# Why a rule fails

`RuleError` has one constructor for each cause. `RuleError.kind` is the stable code of a cause, and
`RuleError.message` the only place where its wording stands.
-/

namespace JsonRules

/-- Why a value does not fit where it stands. -/
inductive Mismatch where
  /-- Two values of these types have no order. -/
  | incomparable (a b : Json.Kind)
  /-- A number was needed. -/
  | notNumber (actual : Json.Kind)
  /-- The text spells no number. -/
  | notNumeral (text : String)
  /-- The result is an infinity or not a number. -/
  | notFinite (result : Extended)
  /-- A path was needed. -/
  | notPath (actual : Json.Kind)
  /-- A string was needed. -/
  | notString (actual : Json.Kind)
deriving DecidableEq, Repr

namespace Mismatch

def expected : Mismatch → String
  | .incomparable _ _ => "comparable values"
  | .notNumber _ => "number"
  | .notNumeral _ => "number"
  | .notFinite _ => "finite number"
  | .notPath _ => "string path"
  | .notString _ => "string"

def actual : Mismatch → String
  | .incomparable a b => a.name ++ " and " ++ b.name
  | .notNumber k => k.name
  | .notNumeral s => "string '" ++ s ++ "'"
  | .notFinite x => Layout.plain.text x
  | .notPath k => k.name
  | .notString k => k.name

end Mismatch

/-- Why a rule is refused or its evaluation fails. -/
inductive RuleError where
  | unknownOperator (name : String)
  | functionNotRegistered (name : String)
  | missingFunctionName
  /-- A host function failed, with its own words. -/
  | host (message : String)
  | typeMismatch (cause : Mismatch)
  | divisionByZero
  | operandCount (operator : Operator) (actual : Nat)
  /-- The node applies an operator to items that is none of the iterations. -/
  | notIteration (operator : Operator)
  | asyncFunctionInSyncRun (name : String)
  /-- The operator has no meaning on operands that are already evaluated. -/
  | needsRun (operator : Operator)
  /-- A synchronous run came to a pause. -/
  | paused
  | depthLimitExceeded (limit : Nat)
  /-- The text of a rule is no JSON. -/
  | unreadable
deriving DecidableEq, Repr

namespace RuleError

/-- The stable code of a cause. -/
def kind : RuleError → String
  | .unknownOperator _ => "unknown_operator"
  | .functionNotRegistered _ => "function_not_registered"
  | .missingFunctionName => "missing_function_name"
  | .host _ => "host_function_error"
  | .typeMismatch _ => "type_mismatch"
  | .divisionByZero => "division_by_zero"
  | .operandCount _ _ | .notIteration _ => "invalid_arguments"
  | .asyncFunctionInSyncRun _ => "async_function_in_sync_context"
  | .needsRun _ | .paused => "execution_error"
  | .depthLimitExceeded _ => "depth_limit_exceeded"
  | .unreadable => "json_error"

/-- The message of an error. -/
def message : RuleError → String
  | .unknownOperator name => "无法识别的操作符: " ++ name
  | .functionNotRegistered name => "函数未注册或不允许调用: '" ++ name ++ "'"
  | .missingFunctionName => "apply 操作至少需要一个参数（函数名）"
  | .host text => text
  | .typeMismatch m => "类型不匹配: 期望 " ++ m.expected ++ ", 实际 " ++ m.actual
  | .divisionByZero => "除数不能为零"
  | .operandCount op n =>
    "操作符 " ++ op.name ++ " 参数无效: 需要 " ++ op.arity.text ++ " 个参数，实际 " ++ toString n ++ " 个"
  | .notIteration op => "操作符 " ++ op.name ++ " 参数无效: 不是集合操作符"
  | .asyncFunctionInSyncRun name => "同步求值中不能调用异步函数: '" ++ name ++ "'"
  | .needsRun op => "规则执行失败: 操作符 " ++ op.name ++ " 需要由执行器处理"
  | .paused => "规则执行失败: 同步求值不应挂起"
  | .depthLimitExceeded limit => "规则嵌套深度超过上限 " ++ toString limit
  | .unreadable => "JSON 序列化错误"

end RuleError
end JsonRules
