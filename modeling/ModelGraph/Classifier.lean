import ModelGraph.Body

namespace ModelGraph

inductive Classifier where
  | profile | enumeration | «class» | association | function | database | mapping | connection
  | runtime | service
  deriving DecidableEq, Repr

namespace Classifier

def all : List Classifier :=
  [.profile, .enumeration, .class, .association, .function, .database, .mapping, .connection,
    .runtime, .service]

def path : Classifier → String
  | .profile => "meta::pure::metamodel::extension::Profile"
  | .enumeration => "meta::pure::metamodel::type::Enumeration"
  | .class => "meta::pure::metamodel::type::Class"
  | .association => "meta::pure::metamodel::relationship::Association"
  | .function => "meta::pure::metamodel::function::ConcreteFunctionDefinition"
  | .database => "meta::relational::metamodel::Database"
  | .mapping => "meta::pure::mapping::Mapping"
  | .connection => "meta::pure::runtime::PackageableConnection"
  | .runtime => "meta::pure::runtime::PackageableRuntime"
  | .service => "meta::legend::service::metamodel::Service"

def type : Classifier → String
  | .profile => "profile"
  | .enumeration => "Enumeration"
  | .class => "class"
  | .association => "association"
  | .function => "function"
  | .database => "relational"
  | .mapping => "mapping"
  | .connection => "connection"
  | .runtime => "runtime"
  | .service => "service"

def kind : Classifier → Kind
  | .profile => .profile
  | .enumeration => .enumeration
  | .class => .class
  | .association => .association
  | .function => .function
  | .database => .database
  | .mapping => .mapping
  | .connection => .connection
  | .runtime => .runtime
  | .service => .service

def ofPath? (path : String) : Option Classifier := all.find? (·.path == path)

/-- The classifier of a kind; packages, primitive types and extension kinds have none. -/
def ofKind? (kind : Kind) : Option Classifier := all.find? (·.kind == kind)

def paths : List String := all.map path

def types : List String := all.map type

end Classifier
end ModelGraph
