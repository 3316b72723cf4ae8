import WebServer.ThreadPoolDrain
import WebServer.ThreadPoolProgress
import WebServer.Reclamation
import WebServer.Stranding
import WebServer.Descriptors
import WebServer.SequentialService
import WebServer.Hazards
import WebServer.RequestSplitting
import WebServer.RequestRecognition
import WebServer.PoolConservation
import WebServer.PoolProvenance
import WebServer.EventTags
import WebServer.ResponseFraming
import WebServer.ResponseWriting
import WebServer.ReceiveBuffer
import WebServer.ContextPerEvent
import WebServer.Destruction
import WebServer.ContextMemory
import WebServer.RequestFormat
import WebServer.Backlog
import WebServer.ServiceRefinement
import WebServer.Responses
