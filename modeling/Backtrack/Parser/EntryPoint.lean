import Backtrack.Parser.StartRule

/-!
# Entry points

The functions through which a parser is called. The first takes ranges of text, the others take
pointers and lengths.
-/

namespace Backtrack.EntryPoint

set_option autoImplicit false

def head : String :=
  "PARSER_API struct Result* parse(struct Range* input, struct Range* startRule, void* data) \x7b"

/-- Sets up the context and starts with the rule that is asked for. -/
def setup : List String := [
  "struct Context ctx = \x7b",
  "  \x7b 0, 0 \x7d,",
  "  \x7b 0, 0, 1, 1 \x7d,",
  "  \x7b 0, \x7b 0, 0, 1, 1 \x7d, 0, 0 \x7d,",
  "  0, 0",
  "\x7d;",
  "ctx.input.begin = input->begin;",
  "ctx.input.end = input->end;",
  "ctx.current.data = input->begin;",
  "ctx.userData = data;",
  "if (startRule) \x7b",
  "  const struct ParseFunc* func = findRule(funcs, sizeof(funcs) / sizeof(funcs[0]), startRule);",
  "  if (func == 0) \x7b return 0; \x7d",
  "  return (*func->func)(&ctx);",
  "\x7d"]

/-- The function that parses from a start rule, by default the first rule. Without rules it
matches nothing. -/
def parse : List String → Lines
  | [] =>
    Lines.empty
      |>.enter head
      |>.extend ["(void)input;", "(void)startRule;", "(void)data;", "return 0;"]
      |>.leave "\x7d"
  | first :: rest =>
    Lines.empty
      |>.enter head
      |>.enter "static struct ParseFunc funcs[] = \x7b"
      |>.extend (StartRule.table (first :: rest))
      |>.leave "\x7d;"
      |>.extend setup
      |>.push ("return " ++ RuleName.function first ++ "(&ctx);")
      |>.leave "\x7d"

/-- The functions that take pointers and lengths. -/
def wrappers : List String := [
  "PARSER_API struct Result* parse2(const char* input, unsigned int len, struct Range* startRule, void* data) \x7b",
  "  struct Range r;",
  "  r.begin = input;",
  "  r.end   = input + len;",
  "  return parse(&r, startRule, data);",
  "\x7d",
  "PARSER_API struct Result* parse3(struct Range* input, const char* startRule, unsigned int len, void* data) \x7b",
  "  if (startRule) \x7b",
  "    struct Range s;",
  "    s.begin = startRule;",
  "    s.end   = startRule + len;",
  "    return parse(input, &s, data);",
  "  \x7d",
  "  return parse(input, 0, data);",
  "\x7d",
  "PARSER_API struct Result* parse4(const char* input, unsigned int inputLen, const char* startRule, unsigned int startRuleLen, void* data) \x7b",
  "  struct Range r;",
  "  r.begin = input;",
  "  r.end   = input + inputLen;",
  "  if (startRule) \x7b",
  "    struct Range s;",
  "    s.begin = startRule;",
  "    s.end   = startRule + startRuleLen;",
  "    return parse(&r, &s, data);",
  "  \x7d",
  "  return parse(&r, 0, data);",
  "\x7d"]

end Backtrack.EntryPoint
