import Muduo.Buffer.ReadFd
import Muduo.Buffer.Retrieval
import Muduo.Buffer.Capacity
import Muduo.EpollPoller.Poll
import Muduo.EpollPoller.Interest
import Muduo.EpollPoller.Slots
import Muduo.LoopThread.Wakeup
import Muduo.LoopThread.Leave
import Muduo.EventLoopThread.Destroy
import Muduo.InetAddress.RoundTrip
import Muduo.Acceptor
import Muduo.TcpConnection.HalfClose
import Muduo.TcpConnection.Lifecycle
import Muduo.TcpConnection.HighWater
import Muduo.TcpConnection.ExactSend
import Muduo.TcpConnection.CrossThread
import Muduo.TcpServer.Returns
import Muduo.TcpServer.RoundRobin
import Muduo.TcpServer.Contract
import Muduo.TcpServer.Disposal
import Muduo.TcpServer.Projection
import Muduo.DesignPattern.Teardown
import Muduo.DesignPattern.Round
import Muduo.Foundations.Trace
import Muduo.LoopThread.Trace
import Muduo.TcpServer.Projection
