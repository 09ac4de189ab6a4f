import Toolchain.Message.Template
import Toolchain.Text.Case

/-!
# Messages

Every sentence the tools say is a message: an entry of the catalogue with the values that fill its
template, or a sentence given by the caller. The catalogue holds each entry in two languages, and a
message is put into words only when its language is known.

## Main definitions

* `Language`, `Language.ofName`: the languages, and the names that select them
* `MessageId`: the entries of the catalogue
* `Message`, `Message.text`: a sentence, and its words in a language
* `translate`: the words for an entry named by its key
-/

namespace Toolchain

/-- The languages of the catalogue. -/
inductive Language where
  | english
  | chinese
  deriving DecidableEq, Repr

namespace Language

/-- The language a name selects: the names of Chinese in any case, and English for any other. -/
def ofName (name : String) : Language :=
  if ["zh", "zh-cn", "zh-tw", "zh-hk", "chinese"].contains
      (String.ofList (name.toList.map Text.lowerChar)) then .chinese
  else .english

/-- The short name of the language. -/
def tag : Language → String
  | .english => "en"
  | .chinese => "zh"

end Language

/-- The entries of the catalogue. -/
inductive MessageId where
  | unexpectedChar
  | unterminatedString
  | newlineInString
  | badContinuation
  | invalidHexNumber
  | invalidNumber
  | invalidFloat
  | unexpectedToken
  | unexpectedIndent
  | unindentMismatch
  | missingBody
  | elifWithoutIf
  | elseWithoutIf
  | exceptWithoutTry
  | finallyWithoutTry
  | tryWithoutHandler
  | clauseOrder
  | invalidTarget
  | cannotDelete
  | invalidLiteral
  | badFString
  | defaultOrder
  | positionalAfterKw
  | nestingTooDeep
  | breakOutsideLoop
  | continueOutsideLoop
  | operandOverflow
  | tooManyArguments
  | unpackArity
  | unsupportedNode
  | unpatchedJump
  | hintIndentation
  | hintMissingBody
  | hintChain
  | hintTarget
  | hintLoopControl
  | usage
  | unknownCommand
  | noInput
  | buildOK
  | checkOK
  | errorCount
  | upToDate
  | initCreated
  | configExists
  | formatted
  | notFormatted
  | replBanner
  | replBye
  deriving DecidableEq, Repr

namespace MessageId

/-- All entries. -/
def all : List MessageId := [
  .unexpectedChar, .unterminatedString, .newlineInString, .badContinuation, .invalidHexNumber,
  .invalidNumber, .invalidFloat, .unexpectedToken, .unexpectedIndent, .unindentMismatch,
  .missingBody, .elifWithoutIf, .elseWithoutIf, .exceptWithoutTry, .finallyWithoutTry,
  .tryWithoutHandler, .clauseOrder, .invalidTarget, .cannotDelete, .invalidLiteral, .badFString,
  .defaultOrder, .positionalAfterKw, .nestingTooDeep, .breakOutsideLoop, .continueOutsideLoop,
  .operandOverflow, .tooManyArguments, .unpackArity, .unsupportedNode, .unpatchedJump,
  .hintIndentation, .hintMissingBody, .hintChain, .hintTarget, .hintLoopControl, .usage,
  .unknownCommand, .noInput, .buildOK, .checkOK, .errorCount, .upToDate, .initCreated,
  .configExists, .formatted, .notFormatted, .replBanner, .replBye]

/-- The key of an entry. -/
def key : MessageId → String
  | unexpectedChar => "lexer.unexpected_char"
  | unterminatedString => "lexer.unterminated_string"
  | newlineInString => "lexer.newline_in_string"
  | badContinuation => "lexer.bad_continuation"
  | invalidHexNumber => "lexer.invalid_hex"
  | invalidNumber => "lexer.invalid_number"
  | invalidFloat => "lexer.invalid_float"
  | unexpectedToken => "parser.unexpected_token"
  | unexpectedIndent => "parser.unexpected_indent"
  | unindentMismatch => "parser.unindent_mismatch"
  | missingBody => "parser.missing_body"
  | elifWithoutIf => "parser.elif_without_if"
  | elseWithoutIf => "parser.else_without_if"
  | exceptWithoutTry => "parser.except_without_try"
  | finallyWithoutTry => "parser.finally_without_try"
  | tryWithoutHandler => "parser.try_without_handler"
  | clauseOrder => "parser.clause_order"
  | invalidTarget => "parser.invalid_target"
  | cannotDelete => "parser.cannot_delete"
  | invalidLiteral => "parser.invalid_literal"
  | badFString => "parser.bad_fstring"
  | defaultOrder => "parser.default_order"
  | positionalAfterKw => "parser.positional_after_keyword"
  | nestingTooDeep => "parser.nesting_too_deep"
  | breakOutsideLoop => "compiler.break_outside_loop"
  | continueOutsideLoop => "compiler.continue_outside_loop"
  | operandOverflow => "compiler.operand_overflow"
  | tooManyArguments => "compiler.too_many_arguments"
  | unpackArity => "compiler.unpack_arity"
  | unsupportedNode => "compiler.unsupported_node"
  | unpatchedJump => "compiler.unpatched_jump"
  | hintIndentation => "hint.indentation"
  | hintMissingBody => "hint.missing_body"
  | hintChain => "hint.chain"
  | hintTarget => "hint.target"
  | hintLoopControl => "hint.loop_control"
  | usage => "cli.usage"
  | unknownCommand => "cli.unknown_command"
  | noInput => "cli.no_input"
  | buildOK => "cli.build_ok"
  | checkOK => "cli.check_ok"
  | errorCount => "cli.error_count"
  | upToDate => "cli.up_to_date"
  | initCreated => "cli.init_created"
  | configExists => "cli.config_exists"
  | formatted => "cli.formatted"
  | notFormatted => "cli.not_formatted"
  | replBanner => "repl.banner"
  | replBye => "repl.bye"

/-- The English template of an entry. -/
def english : MessageId → String
  | unexpectedChar => "unexpected character '%c'"
  | unterminatedString => "unterminated string"
  | newlineInString => "newline in string literal"
  | badContinuation => "'\\' must be followed by a newline"
  | invalidHexNumber => "invalid hex number: %s"
  | invalidNumber => "invalid number: %s"
  | invalidFloat => "invalid float number: %s"
  | unexpectedToken => "Unexpected token on line %d, column %d: '%s'"
  | unexpectedIndent => "Unexpected indentation on line %d, column %d"
  | unindentMismatch => "Unindent does not match any outer indentation level on line %d, column %d"
  | missingBody => "Missing body on line %d, column %d"
  | elifWithoutIf => "'elif' without matching 'if' on line %d, column %d"
  | elseWithoutIf => "'else' without matching 'if' on line %d, column %d"
  | exceptWithoutTry => "'except' without matching 'try' on line %d, column %d"
  | finallyWithoutTry => "'finally' without matching 'try' on line %d, column %d"
  | tryWithoutHandler => "'try' without 'except' or 'finally' on line %d, column %d"
  | clauseOrder => "'%s' is not allowed here on line %d, column %d"
  | invalidTarget => "Cannot assign to %s on line %d, column %d"
  | cannotDelete => "Cannot delete %s on line %d, column %d"
  | invalidLiteral => "Invalid literal on line %d, column %d: '%s'"
  | badFString => "Invalid f-string field on line %d, column %d: '%s'"
  | defaultOrder => "Non-default argument follows default argument on line %d, column %d"
  | positionalAfterKw => "Positional argument follows keyword argument on line %d, column %d"
  | nestingTooDeep => "Expression nested too deeply on line %d, column %d"
  | breakOutsideLoop => "'break' outside loop on line %d"
  | continueOutsideLoop => "'continue' outside loop on line %d"
  | operandOverflow => "%s operand %d exceeds the limit of %d on line %d"
  | tooManyArguments => "too many arguments in call on line %d"
  | unpackArity => "cannot unpack %d values into %d targets on line %d"
  | unsupportedNode => "unsupported %s node on line %d"
  | unpatchedJump => "unpatched jump at instruction %d in %s"
  | hintIndentation => "use the same indentation width as the enclosing block"
  | hintMissingBody => "add an indented statement, or 'pass' for an empty block"
  | hintChain =>
    "'elif'/'else' and 'except'/'finally' must follow their 'if' or 'try' at the same indentation"
  | hintTarget =>
    "only names, attributes, subscripts and tuples/lists of them can be assigned or deleted"
  | hintLoopControl => "'break' and 'continue' can only appear inside 'for' or 'while'"
  | usage => String.join [
      "Pyra language toolchain %s\n",
      "\n",
      "Usage: pyra <command> [options] [files...]\n",
      "\n",
      "Commands:\n",
      "  tokens   Print the token stream\n",
      "  ast      Print the syntax tree\n",
      "  dis      Compile and disassemble\n",
      "  build    Compile to bytecode files\n",
      "  check    Parse and compile without writing output\n",
      "  fmt      Reformat source files\n",
      "  repl     Start the interactive prompt\n",
      "  init     Create pyra.toml in the current directory\n",
      "  version  Print version information\n",
      "\n",
      "Options:\n",
      "  -json          JSON output for tokens/ast\n",
      "  -o <dir>       Output directory for build\n",
      "  -format <fmt>  Bytecode format: native | cbor\n",
      "  -no-cache      Recompile every file in build\n",
      "  -w             Write fmt result back to the file\n",
      "  -check         Only report files fmt would change\n",
      "  -deps          Also build local modules imported by the inputs\n",
      "  -lang <lang>   Message language: en | zh\n",
      "  -v             Verbose logging\n"]
  | unknownCommand => "unknown command: %s"
  | noInput => "no input files"
  | buildOK => "built %s -> %s"
  | checkOK => "%s: ok"
  | errorCount => "found %d error(s)"
  | upToDate => "%s: up to date"
  | initCreated => "created %s"
  | configExists => "%s already exists"
  | formatted => "formatted %s"
  | notFormatted => "%s: not formatted"
  | replBanner => "Pyra %s interactive prompt. Type 'exit' to quit."
  | replBye => "bye"

/-- The Chinese template of an entry. -/
def chinese : MessageId → String
  | unexpectedChar => "意外字符 '%c'"
  | unterminatedString => "未闭合的字符串"
  | newlineInString => "字符串中出现换行"
  | badContinuation => "'\\' 后面必须紧跟换行"
  | invalidHexNumber => "无效的十六进制数: %s"
  | invalidNumber => "无效的数字: %s"
  | invalidFloat => "无效的浮点数: %s"
  | unexpectedToken => "第 %d 行第 %d 列出现意外的 token: '%s'"
  | unexpectedIndent => "第 %d 行第 %d 列缩进不正确"
  | unindentMismatch => "第 %d 行第 %d 列的取消缩进与外层缩进不匹配"
  | missingBody => "第 %d 行第 %d 列缺少语句体"
  | elifWithoutIf => "第 %d 行第 %d 列的 'elif' 没有对应的 'if'"
  | elseWithoutIf => "第 %d 行第 %d 列的 'else' 没有对应的 'if'"
  | exceptWithoutTry => "第 %d 行第 %d 列的 'except' 没有对应的 'try'"
  | finallyWithoutTry => "第 %d 行第 %d 列的 'finally' 没有对应的 'try'"
  | tryWithoutHandler => "第 %d 行第 %d 列的 'try' 缺少 'except' 或 'finally'"
  | clauseOrder => "'%s' 不能出现在第 %d 行第 %d 列"
  | invalidTarget => "不能给 %s 赋值（第 %d 行第 %d 列）"
  | cannotDelete => "不能删除 %s（第 %d 行第 %d 列）"
  | invalidLiteral => "第 %d 行第 %d 列的字面量无效: '%s'"
  | badFString => "第 %d 行第 %d 列的 f-string 字段无效: '%s'"
  | defaultOrder => "第 %d 行第 %d 列：无默认值的参数不能跟在有默认值的参数之后"
  | positionalAfterKw => "第 %d 行第 %d 列：位置参数不能跟在关键字参数之后"
  | nestingTooDeep => "第 %d 行第 %d 列：表达式嵌套过深"
  | breakOutsideLoop => "第 %d 行的 'break' 不在循环内"
  | continueOutsideLoop => "第 %d 行的 'continue' 不在循环内"
  | operandOverflow => "%s 操作数 %d 超过上限 %d（第 %d 行）"
  | tooManyArguments => "第 %d 行的调用参数过多"
  | unpackArity => "无法把 %d 个值解包到 %d 个目标（第 %d 行）"
  | unsupportedNode => "不支持的 %s 节点（第 %d 行）"
  | unpatchedJump => "%[2]s 中第 %[1]d 条指令的跳转未回填"
  | hintIndentation => "使用与所在代码块相同的缩进宽度"
  | hintMissingBody => "添加一条缩进的语句，空代码块可以写 'pass'"
  | hintChain => "'elif'/'else' 和 'except'/'finally' 必须与对应的 'if'/'try' 处于同一缩进"
  | hintTarget => "只能对名字、属性、下标以及由它们组成的元组/列表赋值或删除"
  | hintLoopControl => "'break' 和 'continue' 只能出现在 'for' 或 'while' 中"
  | usage => String.join [
      "Pyra 语言工具链 %s\n",
      "\n",
      "用法: pyra <命令> [选项] [文件...]\n",
      "\n",
      "命令:\n",
      "  tokens   输出 token 流\n",
      "  ast      输出语法树\n",
      "  dis      编译并反汇编\n",
      "  build    编译为字节码文件\n",
      "  check    只解析和编译，不写输出\n",
      "  fmt      格式化源文件\n",
      "  repl     启动交互式环境\n",
      "  init     在当前目录创建 pyra.toml\n",
      "  version  显示版本信息\n",
      "\n",
      "选项:\n",
      "  -json          tokens/ast 以 JSON 输出\n",
      "  -o <目录>      build 的输出目录\n",
      "  -format <格式> 字节码格式: native | cbor\n",
      "  -no-cache      build 时重新编译所有文件\n",
      "  -w             fmt 结果写回文件\n",
      "  -check         只列出 fmt 会修改的文件\n",
      "  -deps          同时编译输入文件导入的本地模块\n",
      "  -lang <语言>   提示语言: en | zh\n",
      "  -v             输出详细日志\n"]
  | unknownCommand => "未知命令: %s"
  | noInput => "没有输入文件"
  | buildOK => "已编译 %s -> %s"
  | checkOK => "%s: 通过"
  | errorCount => "发现 %d 个错误"
  | upToDate => "%s: 无需重新编译"
  | initCreated => "已创建 %s"
  | configExists => "%s 已存在"
  | formatted => "已格式化 %s"
  | notFormatted => "%s: 格式不规范"
  | replBanner => "Pyra %s 交互式环境，输入 'exit' 退出。"
  | replBye => "再见"

/-- The template of an entry in a language. -/
def template (language : Language) (id : MessageId) : Template :=
  match language with
  | .english => .ofString id.english
  | .chinese => .ofString id.chinese

/-- The entry with a given key. -/
def ofKey? (key : String) : Option MessageId := all.find? fun id => id.key == key

end MessageId

/-- A sentence of the tools. -/
inductive Message where
  /-- An entry of the catalogue with the values that fill it. -/
  | entry (id : MessageId) (values : List Template.Value)
  /-- A sentence that is the same in every language. -/
  | plain (text : Text)
  deriving DecidableEq, Repr

namespace Message

/-- The words of a message. A template without values is taken as it stands. -/
def text (language : Language) : Message → Text
  | .entry id values => (id.template language).fill values
  | .plain text => text

end Message

/-- The words for the entry with a given key; a key that names no entry stands for itself. -/
def translate (language : Language) (key : String) (values : List Template.Value) : Text :=
  match MessageId.ofKey? key with
  | some id => (Message.entry id values).text language
  | none => key

end Toolchain
