import ApiCatalog.Routes.Table
/-!
# Source languages

The languages in which routes are annotated, and the forms that the annotations take.
-/

namespace ApiCatalog

inductive Language where
  | python
  | java
  | typeScript
  deriving Repr, DecidableEq

namespace Language

def name : Language → String
  | .python => "python"
  | .java => "java"
  | .typeScript => "typescript"

def all : List Language := [.python, .java, .typeScript]

def ofName? (name : String) : Option Language :=
  all.find? fun language => language.name == name

def ofExtension? : String → Option Language
  | "py" => some .python
  | "java" | "kt" => some .java
  | "ts" | "js" => some .typeScript
  | _ => none

def pythonFiles : List String := ["py"]

def jvmFiles : List String := ["java", "kt"]

def scriptFiles : List String := ["ts", "js"]

def pythonRows : List RouteRow := [
  ⟨"@(\\w+)\\.(route|get|post|put|delete|patch)\\(\\s*['\"]([^'\"]+)['\"]", pythonFiles, .ownerVerbPath⟩]

def javaRows : List RouteRow := [
  ⟨"@(Get|Post|Put|Delete|Patch)Mapping\\(\\s*(?:(?:value|path)\\s*=\\s*)?"
      ++ "[\\[\x7b]?\\s*['\"]([^'\"]+)['\"]",
    jvmFiles, .verbThenPath⟩,
  ⟨"@RequestMapping\\(\\s*(?:(?:value|path)\\s*=\\s*)?[\\[\x7b]?\\s*['\"]([^'\"]+)['\"]"
      ++ ".*method\\s*=\\s*[\\[\x7b]?\\s*RequestMethod\\.(\\w+)",
    jvmFiles, .pathThenVerb⟩,
  ⟨"@Path\\(\\s*['\"]([^'\"]+)['\"]", jvmFiles, .pathOnly⟩]

/-- Verb annotations of methods and route annotations of classes. -/
def typeScriptRows : List RouteRow := [
  ⟨"@(Get|Post|Put|Delete|Patch)\\(\\s*['\"]([^'\"]+)['\"]", scriptFiles, .verbThenPath⟩,
  ⟨"@Route\\(\\s*['\"]([^'\"]+)['\"]", scriptFiles, .pathOnly⟩]

def rows : Language → List RouteRow
  | .python => pythonRows
  | .java => javaRows
  | .typeScript => typeScriptRows

def table (language : Language) : RouteTable := .ofRows language.rows

end Language

end ApiCatalog
